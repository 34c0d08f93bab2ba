/-
  Moo-code — source text.

  A source text is read from left to right.  Three letters that spell an
  instruction are taken together; anything else is noise and is passed over, one
  byte at a time, so every text is a program.

  * `Source.scan bs`: the instructions spelled in a byte sequence.
  * `Source.decode text`: the instructions of a text, ended by `halt`.
  * `Source.tokenize cs`: the instructions spelled in a sequence of characters,
    where noise is passed over one character at a time.
-/
import MooCode.Instruction

namespace MooCode.Source

/-- The instructions spelled in the bytes `bs`. -/
def scan : List UInt8 → List Instruction
  | a :: b :: c :: rest =>
    match Instruction.ofBytes? [a, b, c] with
    | some i => i :: scan rest
    | none => scan (b :: c :: rest)
  | _ => []

/-- The program that the bytes `bs` spell, ended by `halt`. -/
def decodeBytes (bs : List UInt8) : List Instruction :=
  scan bs ++ [.halt]

/-- The program that the text `text` spells, ended by `halt`. -/
def decode (text : String) : List Instruction :=
  decodeBytes (Text.Utf8.encode text.toList)

/-- The instruction that the characters `cs` spell. -/
def ofLetters? (cs : List Char) : Option Instruction :=
  Instruction.spelled.find? fun i => i.label.toList = cs

/-- The instructions spelled in the characters `cs`. -/
def tokenize : List Char → List Instruction
  | a :: b :: c :: rest =>
    match ofLetters? [a, b, c] with
    | some i => i :: tokenize rest
    | none => tokenize (b :: c :: rest)
  | _ => []

end MooCode.Source
