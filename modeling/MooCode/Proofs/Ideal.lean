/-
  Moo-code — the ideal machine.

  The ideal machine is the machine with integers of any size in its cells and its register.  It
  adds and subtracts without a limit; a read still takes no integer that a cell cannot hold.

  * `Ideal.Tape` and `Ideal.Machine`, with everything that can be asked of the machine up to
    `Ideal.Machine.calls`.  What has the name of an operation of `Tape` or `Machine` is that
    operation.
  * `Ideal.Machine.counted?`: what the next cycle counts to, and `Ideal.Machine.results m cs`: what
    the increments and decrements come to that the calls `cs` to `m` perform, in order.
-/
import MooCode.Machine.Call

namespace MooCode

/-- Whether a cell can hold the integer `n`: it is at least -2^31 and at most 2^31 - 1. -/
def Cell.InRange (n : Int) : Prop :=
  -2147483648 ≤ n ∧ n ≤ 2147483647

instance : DecidablePred Cell.InRange :=
  fun n => inferInstanceAs (Decidable (-2147483648 ≤ n ∧ n ≤ 2147483647))

namespace Ideal

/-! ## Integers for cells -/

/-- The integer that the text `cs` is a numeral of, if a cell can hold it. -/
def ofDecimal? (cs : List Char) : Option Int :=
  (Text.Numeral.integer? cs).filter fun n => Cell.InRange n

/-- The character whose code point is `n`. -/
def toChar? (n : Int) : Option Char :=
  if 0 ≤ n ∧ n.toNat.isValidChar then some (Char.ofNat n.toNat) else none

/-- The instruction whose code is `n`, `halt` if there is none. -/
def ofCode (n : Int) : Instruction :=
  if 0 ≤ n then Instruction.spelled.getD n.toNat .halt else .halt

/-- The instruction that `i` stands for when the current cell holds `n`. -/
def resolve (i : Instruction) (n : Int) : Instruction :=
  if i = .exec then ofCode n else i

/-- A row of integers with a pointer to one of them. -/
structure Tape where
  left : List Int
  here : Int
  right : List Int

namespace Tape

def zeros (n : Nat) : Tape :=
  ⟨[], 0, List.replicate n 0⟩

def clear (t : Tape) : Tape :=
  zeros (t.left.length + t.right.length)

def set (t : Tape) (v : Int) : Tape :=
  { t with here := v }

def back : Tape → Except Fault Tape
  | ⟨l :: left, here, right⟩ => .ok ⟨left, l, here :: right⟩
  | ⟨[], _, _⟩ => .error { cause := .outOfBounds, detail := "POINTER BELOW FIRST CELL" }

def forward : Tape → Except Fault Tape
  | ⟨left, here, r :: right⟩ => .ok ⟨here :: left, r, right⟩
  | ⟨_, _, []⟩ => .error { cause := .outOfBounds, detail := "POINTER PAST LAST CELL" }

end Tape

/-- A machine with integers in its cells and its register. -/
structure Machine where
  tape : Tape
  register : Int
  program : Program
  status : Status
  input : List Char
  closed : Bool

namespace Machine

/-! ## Cycles of the ideal machine -/

def nextLine? (m : Machine) : Option (List Char × List Char) :=
  match m.input.span (· ≠ '\n') with
  | (line, newline :: rest) => some (line ++ [newline], rest)
  | (line, []) => if m.closed ∧ line ≠ [] then some (line, []) else none

def starve (m : Machine) : Machine × Reading :=
  (m, if m.closed then .refused { cause := .inputPastEnd } else .pending)

def readChar (m : Machine) : Machine × Reading :=
  match m.input with
  | c :: rest => ({ m with tape := m.tape.set c.toNat, input := rest }, .taken)
  | [] => m.starve

def readInteger (m : Machine) : Machine × Reading :=
  match m.nextLine? with
  | some (line, rest) =>
    let text := Text.trim line
    match ofDecimal? text with
    | some v => ({ m with tape := m.tape.set v, input := rest }, .taken)
    | none =>
      ({ m with input := rest },
        .refused { cause := .illegalInput, detail := String.ofList text })
  | none => m.starve

def read (m : Machine) : (r : Request) → Machine × Reading
  | .char => m.readChar
  | .integer => m.readInteger

def withTape (m : Machine) : Except Fault Tape → Machine × Effect
  | .ok t => ({ m with tape := t }, .next)
  | .error f => (m, .fail f)

def jump (m : Machine) (line : Nat) : Machine × Effect :=
  match m.program.goto line with
  | .ok p => ({ m with program := p }, .next)
  | .error f => (m, .fail f)

def demand (m : Machine) (r : Request) : Machine × Effect :=
  match m.read r with
  | (m, .taken) => (m, .next)
  | (m, .pending) => (m, .await r)
  | (m, .refused f) => (m, .fail f)

def printChar (m : Machine) : Machine × Effect :=
  match toChar? m.tape.here with
  | some c => (m, .print (String.singleton c))
  | none =>
    (m, .fail { cause := .illegalCharacter,
                detail := String.ofList (Text.Numeral.write m.tape.here) })

/-- What the instruction `i` does.  An increment or a decrement never fails. -/
def perform (m : Machine) (i : Instruction) (line : Nat) : Machine × Effect :=
  match i with
  | .jumpBack =>
    match m.program.loopStart line with
    | some mark => m.jump mark
    | none => (m, .fail { cause := .noMarker })
  | .left => m.withTape m.tape.back
  | .right => m.withTape m.tape.forward
  | .exec => (m, .fail { cause := .selfReference })
  | .character => if m.tape.here = 0 then m.demand .char else m.printChar
  | .decrement => ({ m with tape := m.tape.set (m.tape.here - 1) }, .next)
  | .increment => ({ m with tape := m.tape.set (m.tape.here + 1) }, .next)
  | .mark =>
    if m.tape.here = 0 then
      match m.program.loopExit line with
      | some resume => m.jump resume
      | none => (m, .fail { cause := .unterminatedMarker })
    else (m, .next)
  | .clear => ({ m with tape := m.tape.set 0 }, .next)
  | .transfer =>
    if m.register = 0 then ({ m with register := m.tape.here }, .next)
    else ({ m with tape := m.tape.set m.register, register := 0 }, .next)
  | .printInt => (m, .print (String.ofList (Text.Numeral.write m.tape.here)))
  | .readInt => m.demand .integer
  | .halt => (m, .halt)

/-- The instruction that the next cycle performs. -/
def upcoming (m : Machine) : Instruction :=
  resolve m.program.peek m.tape.here

def fetched (m : Machine) : Machine :=
  { m with program := m.program.advance }

def abort (m : Machine) (f : Fault) (line : Nat) : Machine × Event :=
  ({ m with status := .idle }, .failed (f.inLine line))

def settle (m : Machine) (line : Nat) : Effect → Machine × Option Event
  | .next => (m, none)
  | .print text => (m, some (.print text))
  | .await r => ({ m with status := .waiting r line }, some (.input r))
  | .halt => ({ m with status := .idle }, some .ended)
  | .fail f => ((m.abort f line).1, some (m.abort f line).2)

def cycle (m : Machine) : Machine × Option Event :=
  let after := m.fetched.perform m.upcoming m.program.cursor
  after.1.settle m.program.cursor after.2

/-! ## Slices and calls of the ideal machine -/

def advance : (cycles : Nat) → Machine → Machine × Event
  | 0, m => (m, .running)
  | n + 1, m =>
    match m.cycle with
    | (m, none) => advance n m
    | (m, some e) => (m, e)

def execute (m : Machine) (cycles : Nat) : Machine × Event :=
  match m.status with
  | .idle => (m, .stopped)
  | .running => advance cycles m
  | .waiting r line =>
    match m.read r with
    | (m, .taken) => advance cycles { m with status := .running }
    | (m, .pending) => (m, .input r)
    | (m, .refused f) => m.abort f line

/-- What is possible only while no run is on. -/
def unlessActive (m m' : Machine) : Machine × Reply :=
  if m.status = .idle then (m', .done) else (m, .refused { cause := .alreadyRunning })

def call (m : Machine) (c : Call) : Machine × Reply :=
  match c with
  | .start text => m.unlessActive { m with program := Program.ofSource text, status := .running }
  | .reset => m.unlessActive { m with tape := m.tape.clear, register := 0 }
  | .enter text => ({ m with input := m.input ++ text.toList ++ ['\n'] }, .done)
  | .closeInput => ({ m with closed := true }, .done)
  | .execute cycles =>
    let after := m.execute cycles
    (after.1, .event after.2)

def calls (m : Machine) : (cs : List Call) → Machine × List Reply
  | [] => (m, [])
  | c :: cs =>
    let after := m.call c
    let rest := after.1.calls cs
    (rest.1, after.2 :: rest.2)

/-! ## What is counted -/

/-- What the next cycle counts to, if it performs an increment or a decrement. -/
def counted? (m : Machine) : Option Int :=
  match m.upcoming with
  | .increment => some (m.tape.here + 1)
  | .decrement => some (m.tape.here - 1)
  | _ => none

/-- What `Machine.advance cycles` counts to. -/
def advanceResults : (cycles : Nat) → Machine → List Int
  | 0, _ => []
  | n + 1, m =>
    m.counted?.toList ++
      match m.cycle with
      | (m, none) => advanceResults n m
      | (_, some _) => []

/-- What `Machine.execute cycles` counts to. -/
def executeResults (m : Machine) (cycles : Nat) : List Int :=
  match m.status with
  | .idle => []
  | .running => advanceResults cycles m
  | .waiting r _ =>
    match m.read r with
    | (m, .taken) => advanceResults cycles { m with status := .running }
    | _ => []

/-- What the call `c` counts to. -/
def callResults (m : Machine) : (c : Call) → List Int
  | .execute cycles => m.executeResults cycles
  | _ => []

/-- What the calls `cs` count to. -/
def results (m : Machine) : (cs : List Call) → List Int
  | [] => []
  | c :: cs => m.callResults c ++ (m.call c).1.results cs

theorem advanceResults_of_next {m m' : Machine} (h : m.cycle = (m', none)) (n : Nat) :
    advanceResults (n + 1) m = m.counted?.toList ++ advanceResults n m' := by
  simp only [advanceResults, h]

theorem results_append (m : Machine) (cs cs' : List Call) :
    m.results (cs ++ cs') = m.results cs ++ (m.calls cs).1.results cs' := by
  induction cs generalizing m with
  | nil => rfl
  | cons c cs ih => simp only [List.cons_append, results, calls, ih, List.append_assoc]

end Machine

end Ideal

end MooCode
