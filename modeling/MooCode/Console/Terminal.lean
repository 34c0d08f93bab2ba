/-
  Moo-code console — the error stream of a terminal.

  * `Style.plain`: lines without colours, bold type by escape sequences.
-/
import MooCode.Console.Log

namespace MooCode.Console

/-- The name of a level, five characters wide. -/
def Level.title : Level → String
  | warn => " WARN"
  | info => " INFO"
  | debug => "DEBUG"
  | trace => "TRACE"

/-- A record as a line: its level, its message, and its fields by name. -/
def Record.line (r : Record) : String :=
  r.level.title ++ " " ++ r.message ++
    String.join (r.fields.map fun f => " " ++ f.1 ++ "=" ++ f.2) ++ "\n"

/-- Lines without colours, and bold type by escape sequences. -/
def Style.plain : Style where
  record least r := if r.level.rank ≤ least.rank then r.line else ""
  bold text := "\x1b[1m" ++ text ++ "\x1b[0m"
  hidden _ _ h := if_neg (Nat.not_le.2 h)

end MooCode.Console
