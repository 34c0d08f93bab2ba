/-
  Moo-code console — the log.

  * `Level`: how important a record is, and `Level.least verbosity`: the least
    important one that is shown.
  * `Record.ofEntry`: the record of an entry of a run's journal.
  * `Style`: what records and texts look like on the error stream.  The console
    is the same whatever they look like.
-/
import MooCode.Machine.Journal

namespace MooCode.Console

/-- How important a record is. -/
inductive Level where
  /-- Always shown. -/
  | warn
  /-- What the command does. -/
  | info
  /-- Where runs begin and end. -/
  | debug
  /-- Every instruction. -/
  | trace
  deriving DecidableEq

/-- The number of levels that are more important. -/
def Level.rank : Level → Nat
  | warn => 0
  | info => 1
  | debug => 2
  | trace => 3

/-- The least important level that is shown. -/
def Level.least : (verbosity : Nat) → Level
  | 0 => warn
  | 1 => info
  | 2 => debug
  | _ => trace

/-- Whether a level is shown. -/
def Level.shownAt (l : Level) (verbosity : Nat) : Bool :=
  l.rank ≤ (least verbosity).rank

/-- A record of the log. -/
structure Record where
  /-- How important it is. -/
  level : Level
  /-- What happened. -/
  message : String
  /-- What the message is about, by name. -/
  fields : List (String × String)
  deriving DecidableEq

/-- The record of an entry of a run's journal. -/
def Record.ofEntry : Entry → Record
  | .started instructions capacity =>
    ⟨.debug, "run started",
      [("instructions", Text.Numeral.text instructions), ("capacity", Text.Numeral.text capacity)]⟩
  | .dispatched line instruction pointer =>
    ⟨.trace, "dispatch",
      [("line", Text.Numeral.text line), ("instruction", instruction.label),
        ("pointer", Text.Numeral.text pointer)]⟩
  | .ended line => ⟨.debug, "run ended", [("line", Text.Numeral.text line)]⟩
  | .aborted fault => ⟨.warn, "run aborted", [("error", fault.message)]⟩

/-- The record of a command that runs a file. -/
def announcement (file : String) (capacity : Nat) : Record :=
  ⟨.info, "running", [("file", file), ("capacity", Text.Numeral.text capacity)]⟩

/-- What records and texts look like on the error stream. -/
structure Style where
  /-- What is written for a record where `least` is the least important level that
      is shown. -/
  record : (least : Level) → Record → String
  /-- A text in bold type. -/
  bold : (text : String) → String
  /-- Nothing is written for a record that is less important. -/
  hidden : ∀ (least : Level) (r : Record), least.rank < r.level.rank → record least r = ""

namespace Style

/-- What is written for records. -/
def written (style : Style) (verbosity : Nat) (rs : List Record) : String :=
  String.join (rs.map (style.record (.least verbosity)))

/-- A line in bold type. -/
def boldLine (style : Style) (text : String) : String :=
  style.bold text ++ "\n"

end Style

end MooCode.Console
