/-
  Moo-code console — lines of standard input.

  * `Supply.next bs`: the next line of the bytes `bs`, and the bytes after it.
-/
import MooCode.Text.Utf8

namespace MooCode.Console

/-- What standard input has to give. -/
inductive Supply where
  /-- A line, without the characters that end it. -/
  | line (text : String)
  /-- Nothing more. -/
  | nothing
  /-- A line that is no text. -/
  | malformed
  deriving DecidableEq

/-- Whether a character is one of those that end lines. -/
def endsLine (c : Char) : Bool :=
  c == '\r' || c == '\n'

/-- A line without the characters that end it. -/
def stripLineEnd (cs : List Char) : List Char :=
  (cs.reverse.dropWhile endsLine).reverse

/-- The bytes up to the first newline, and those after it. -/
def cutLine (bs : List UInt8) : List UInt8 × List UInt8 :=
  match bs.span (· ≠ 0x0A) with
  | (line, newline :: rest) => (line ++ [newline], rest)
  | (line, []) => (line, [])

/-- The next line of the bytes `bs`, and the bytes after it. -/
def Supply.next (bs : List UInt8) : Supply × List UInt8 :=
  match cutLine bs with
  | ([], rest) => (.nothing, rest)
  | (bytes, rest) =>
    match Text.Utf8.decodeAll? bytes with
    | some cs => (.line (String.ofList (stripLineEnd cs)), rest)
    | none => (.malformed, rest)

end MooCode.Console
