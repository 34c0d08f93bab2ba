/-
  Moo-code console — the command line.

  Arguments are switches.  A switch has a letter (`-m`) and a word (`--memory`).
  A setting takes a value: the rest of its argument, after `=` if there is one,
  or else the next argument.  Flags take none; letters of flags can be written
  together, and a setting may end such a cluster.

  * `Options`: what the command is asked to do with a program.
  * `Invocation.ofArguments args`: what the arguments ask for.  They are read from
    left to right, and the first one that settles the matter wins: a request for
    the help or the version text, or a mistake.
-/
import MooCode.Tape

namespace MooCode.Console

/-- What the command is asked to do with a program. -/
structure Options where
  /-- The file with the source text. -/
  file : String
  /-- The number of cells. -/
  memory : Int
  /-- The file for the output, if it does not go to standard output. -/
  output : Option String
  /-- Whether the program is only listed. -/
  list : Bool
  /-- How much is logged. -/
  verbosity : Nat
  deriving DecidableEq

/-- What a list of arguments asks for. -/
inductive Invocation where
  /-- List or run a program. -/
  | run (options : Options)
  /-- Show the help text. -/
  | help
  /-- Show the version. -/
  | version
  /-- Nothing that makes sense. -/
  | mistaken
  deriving DecidableEq

/-! ## Switches -/

/-- A switch that takes a value. -/
inductive Setting where
  /-- The source file. -/
  | file
  /-- The number of cells. -/
  | memory
  /-- The output file. -/
  | output
  deriving DecidableEq

/-- A switch that takes no value. -/
inductive Flag where
  /-- Only list the program. -/
  | list
  /-- Log more. -/
  | verbose
  /-- Show the help text. -/
  | help
  /-- Show the version. -/
  | version
  deriving DecidableEq

/-- A switch. -/
inductive Switch where
  /-- One that takes a value. -/
  | setting (setting : Setting)
  /-- One that takes none. -/
  | flag (flag : Flag)
  deriving DecidableEq

/-- The switches, each with its letter and its word. -/
def switches : List (Char × String × Switch) :=
  [('f', "file", .setting .file), ('m', "memory", .setting .memory),
    ('o', "output", .setting .output), ('l', "list", .flag .list),
    ('v', "verbose", .flag .verbose), ('h', "help", .flag .help),
    ('V', "version", .flag .version)]

/-- The switch with a given letter. -/
def Switch.ofLetter? (c : Char) : Option Switch :=
  (switches.find? fun s => s.1 = c).map fun s => s.2.2

/-- The switch with a given word, which is never shortened. -/
def Switch.ofWord? (word : List Char) : Option Switch :=
  (switches.find? fun s => s.2.1.toList = word).map fun s => s.2.2

/-- Whether an argument of its own can be the value of a setting.  One that looks
    like a switch is no file name; a number of cells may be negative. -/
def Setting.allows : Setting → List Char → Bool
  | memory, _ => true
  | _, ['-'] => true
  | _, '-' :: _ => false
  | _, _ => true

/-! ## Reading -/

/-- What the arguments read so far say. -/
structure Draft where
  /-- The source file, if it has been given. -/
  file : Option String := none
  /-- The number of cells, if it has been given. -/
  memory : Option Int := none
  /-- The output file, if it has been given. -/
  output : Option String := none
  /-- Whether a listing has been asked for. -/
  list : Bool := false
  /-- How often more logging has been asked for. -/
  verbosity : Nat := 0
  deriving DecidableEq

/-- How far the arguments have been read. -/
inductive Progress where
  /-- Between two switches. -/
  | ready (draft : Draft)
  /-- A setting wants the next argument as its value. -/
  | awaiting (setting : Setting) (draft : Draft)
  /-- After `--`, where no switch can follow. -/
  | closed (draft : Draft)
  /-- The matter is settled. -/
  | settled (invocation : Invocation)
  deriving DecidableEq

/-- The mistake that settles the matter. -/
def Progress.mistake : Progress :=
  .settled .mistaken

/-- The value of a text that is a 64-bit signed integer. -/
def memory? (value : List Char) : Option Int :=
  (Text.Numeral.integer? value).filter fun n =>
    decide (-9223372036854775808 ≤ n ∧ n ≤ 9223372036854775807)

/-- The name of a file, which has at least one character. -/
def fileName? (value : List Char) : Option String :=
  if value = [] then none else some (String.ofList value)

/-- A value given for the first time; a second one is a mistake. -/
def once {α : Type} (old new : Option α) : Option (Option α) :=
  match old, new with
  | none, some v => some (some v)
  | _, _ => none

namespace Draft

/-- The value `value` given to a setting. -/
def assign (d : Draft) (s : Setting) (value : List Char) : Progress :=
  let draft? :=
    match s with
    | .file => (once d.file (fileName? value)).map fun v => { d with file := v }
    | .memory => (once d.memory (memory? value)).map fun v => { d with memory := v }
    | .output => (once d.output (fileName? value)).map fun v => { d with output := v }
  match draft? with
  | some d => .ready d
  | none => .mistake

/-- A flag given.  All but the verbosity can be given once. -/
def raise (d : Draft) : Flag → Progress
  | .list => if d.list then .mistake else .ready { d with list := true }
  | .verbose => .ready { d with verbosity := d.verbosity + 1 }
  | .help => .settled .help
  | .version => .settled .version

/-- The letters of a cluster. -/
def cluster (d : Draft) : List Char → Progress
  | [] => .ready d
  | c :: rest =>
    match Switch.ofLetter? c with
    | none => .mistake
    | some (.setting s) =>
      match rest with
      | [] => .awaiting s d
      | '=' :: value => d.assign s value
      | value => d.assign s value
    | some (.flag f) =>
      match d.raise f with
      | .ready d => d.cluster rest
      | p => p

/-- A switch given by its word, with a value attached by `=` if there is one. -/
def word (d : Draft) (name : List Char) (value? : Option (List Char)) : Progress :=
  match Switch.ofWord? name, value? with
  | some (.setting s), some value => d.assign s value
  | some (.setting s), none => .awaiting s d
  | some (.flag f), none => d.raise f
  | _, _ => .mistake

/-- An argument between two switches. -/
def argument (d : Draft) : List Char → Progress
  | ['-', '-'] => .closed d
  | '-' :: '-' :: rest =>
    match rest.span (· ≠ '=') with
    | (name, _ :: value) => d.word name (some value)
    | (name, []) => d.word name none
  | '-' :: c :: rest => d.cluster (c :: rest)
  | _ => .mistake

/-- What a complete draft asks for; the file has to be given. -/
def invocation (d : Draft) : Invocation :=
  match d.file with
  | some file =>
    .run ⟨file, d.memory.getD Tape.defaultCapacity, d.output, d.list, d.verbosity⟩
  | none => .mistaken

end Draft

/-- One more argument. -/
def Progress.read (p : Progress) (arg : String) : Progress :=
  match p with
  | .ready d => d.argument arg.toList
  | .awaiting s d => if s.allows arg.toList then d.assign s arg.toList else mistake
  | .closed _ => mistake
  | .settled i => .settled i

/-- No more arguments. -/
def Progress.invocation : Progress → Invocation
  | ready d | closed d => d.invocation
  | awaiting _ _ => .mistaken
  | settled i => i

/-- What the arguments `args` ask for. -/
def Invocation.ofArguments (args : List String) : Invocation :=
  (args.foldl Progress.read (.ready {})).invocation

/-! ## Texts -/

/-- The version text. -/
def versionText : String :=
  "moo-lang 0.1.0\n"

/-- How the command is called. -/
def usageLine : String :=
  "Usage: moo [OPTIONS] --file <FILE>\n"

/-- The help text. -/
def helpText : String :=
  "An interpreter for the Moo-code esoteric programming language\n" ++
  "\n" ++
  usageLine ++
  "\n" ++
  "Options:\n" ++
  "  -f, --file <FILE>      Program source file\n" ++
  "  -m, --memory <MEMORY>  Tape capacity in cells [default: 30000]\n" ++
  "  -o, --output <OUTPUT>  Write program output to this file instead of stdout\n" ++
  "  -l, --list             Print the decoded program and exit\n" ++
  "  -v, --verbose...       Log to stderr, repeat for more detail\n" ++
  "  -h, --help             Print help\n" ++
  "  -V, --version          Print version\n"

end MooCode.Console
