/-
  Moo-code — the instructions.

  Twelve instructions are spelled by three letters; the thirteenth, `halt`, has
  no spelling and stands at the end of every program.

  * `Instruction.token? i`: the three letters of an instruction, and
    `Instruction.ofBytes? bs`: the instruction that the bytes spell.
  * `Instruction.code? i`: the number of a spelled instruction, and
    `Instruction.ofCode c`: the instruction that a cell stands for.
  * `Instruction.resolve i c`: what an instruction stands for when the current
    cell is `c`.
-/
import MooCode.Cell
import MooCode.Text.Utf8

namespace MooCode

/-- An instruction. -/
inductive Instruction where
  /-- `moo`: return to the nearest marker that opens a loop. -/
  | jumpBack
  /-- `mOo`: move the pointer one cell to the left. -/
  | left
  /-- `moO`: move the pointer one cell to the right. -/
  | right
  /-- `mOO`: perform the instruction whose code is in the current cell. -/
  | exec
  /-- `Moo`: print the current cell as a character, or read one if it is zero. -/
  | character
  /-- `MOo`: subtract one from the current cell. -/
  | decrement
  /-- `MoO`: add one to the current cell. -/
  | increment
  /-- `MOO`: a marker, which skips past a return if the current cell is zero. -/
  | mark
  /-- `OOO`: set the current cell to zero. -/
  | clear
  /-- `MMM`: move a value between the current cell and the register. -/
  | transfer
  /-- `OOM`: print the current cell as an integer. -/
  | printInt
  /-- `oom`: read an integer into the current cell. -/
  | readInt
  /-- End the run. -/
  | halt
  deriving DecidableEq

namespace Instruction

/-- The spelled instructions, in the order of their codes. -/
def spelled : List Instruction :=
  [jumpBack, left, right, exec, character, decrement, increment, mark, clear, transfer, printInt,
    readInt]

/-! ## Spelling -/

/-- The three letters that spell an instruction. -/
def token? : Instruction → Option String
  | jumpBack => some "moo"
  | left => some "mOo"
  | right => some "moO"
  | exec => some "mOO"
  | character => some "Moo"
  | decrement => some "MOo"
  | increment => some "MoO"
  | mark => some "MOO"
  | clear => some "OOO"
  | transfer => some "MMM"
  | printInt => some "OOM"
  | readInt => some "oom"
  | halt => none

/-- The text that stands for an instruction in a listing. -/
def label (i : Instruction) : String :=
  i.token?.getD "[END]"

/-- The bytes that spell the instructions. -/
def spellings : List (List UInt8 × Instruction) :=
  spelled.map fun i => (Text.Utf8.encode i.label.toList, i)

/-- The instruction that the bytes `bs` spell. -/
def ofBytes? (bs : List UInt8) : Option Instruction :=
  spellings.lookup bs

/-! ## Codes -/

/-- The code of an instruction. -/
def code? (i : Instruction) : Option Cell :=
  (spelled.idxOf? i).map Int32.ofNat

/-- The instruction that a cell stands for: `halt` if the cell is no code. -/
def ofCode (c : Cell) : Instruction :=
  if 0 ≤ c.toInt then spelled.getD c.toInt.toNat halt else halt

/-- The instruction that `i` stands for when the current cell holds `c`. -/
def resolve (i : Instruction) (c : Cell) : Instruction :=
  if i = exec then ofCode c else i

end Instruction

end MooCode
