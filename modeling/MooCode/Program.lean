/-
  Moo-code — programs.

  A program is a row of instructions, ended by `halt`, and a cursor.  The
  instructions never change; only the cursor moves.

  * `Program.ofSource text`: the program of a source text.
  * `Program.peek`, `Program.advance`, `Program.goto`: the instruction at the
    cursor, and the moves of the cursor.
  * `Program.loopStart line`: the marker that a return in `line` goes to, and
    `Program.loopExit line`: where a run goes on if the marker in `line` skips
    its loop.
  * `Program.listing`: the program as text, one instruction in a line.
-/
import MooCode.Fault
import MooCode.Source

namespace MooCode

/-- A row of instructions and a cursor. -/
structure Program where
  /-- The instructions, `halt` last. -/
  instructions : Array Instruction
  /-- The line of the next instruction. -/
  cursor : Nat
  deriving DecidableEq

namespace Program

/-- The program of the source text `text`, with the cursor at its start. -/
def ofSource (text : String) : Program :=
  ⟨(Source.decode text).toArray, 0⟩

instance : Inhabited Program :=
  ⟨ofSource ""⟩

/-- The number of instructions, `halt` included. -/
def length (p : Program) : Nat :=
  p.instructions.size

/-- The instruction in the line `line`. -/
def instruction? (p : Program) (line : Nat) : Option Instruction :=
  p.instructions[line]?

/-! ## The cursor -/

/-- The instruction at the cursor. -/
def peek (p : Program) : Instruction :=
  (p.instruction? p.cursor).getD .halt

/-- The cursor one line further, unless it is on the last line. -/
def advance (p : Program) : Program :=
  if p.cursor + 1 < p.length then { p with cursor := p.cursor + 1 } else p

/-- The fault of a cursor sent to the line `line`, past the end of the program. -/
def outOfRange (p : Program) (line : Nat) : Fault where
  cause := .internalError
  detail := "LINE " ++ Text.Numeral.text line ++ " OUT OF RANGE 0-" ++
    Text.Numeral.text (p.length - 1)

/-- The cursor in the line `line`. -/
def goto (p : Program) (line : Nat) : Except Fault Program :=
  if line < p.length then .ok { p with cursor := line } else .error (p.outOfRange line)

/-! ## Loops -/

/-- Whether the line `line` holds a marker that opens a loop: one that does not
    directly follow another. -/
def opensLoop (p : Program) (line : Nat) : Bool :=
  p.instruction? line == some .mark && (line == 0 || p.instruction? (line - 1) != some .mark)

/-- The last marker that opens a loop among the first `n` lines. -/
def lastOpening (p : Program) : (n : Nat) → Option Nat
  | 0 => none
  | n + 1 => if p.opensLoop n then some n else p.lastOpening n

/-- The last marker that opens a loop, in the line `line` or before it.  Lines
    past the end of the program hold none. -/
def loopStart (p : Program) (line : Nat) : Option Nat :=
  p.lastOpening (min (line + 1) p.length)

/-- The line after the first return among the `n` lines from `line` on, unless
    the program ends before it. -/
def afterReturn (p : Program) : (n line : Nat) → Option Nat
  | 0, _ => none
  | n + 1, line =>
    match p.instruction? line with
    | some .jumpBack => some (line + 1)
    | some .halt | none => none
    | some _ => p.afterReturn n (line + 1)

/-- Where a run goes on if the marker in the line `mark` skips its loop: after
    the first return, where the instruction that directly follows the marker
    does not count. -/
def loopExit (p : Program) (mark : Nat) : Option Nat :=
  match p.instruction? (mark + 1) with
  | some .halt | none => none
  | some _ => p.afterReturn (p.length - (mark + 2)) (mark + 2)

/-! ## Listings -/

/-- A row of a listing: the line, a blank and the instruction. -/
def row (i : Instruction) (line : Nat) : List Char :=
  Text.Numeral.digits line ++ ' ' :: i.label.toList ++ ['\n']

/-- The program as text, one instruction in a row. -/
def listing (p : Program) : String :=
  String.ofList (p.instructions.toList.zipIdx.flatMap fun r => row r.1 r.2)

end Program

end MooCode
