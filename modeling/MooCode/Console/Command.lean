/-
  Moo-code console — the command.

  * `load`: the text of a source file.
  * `Options.machine`: an idle machine of the asked capacity, and `openChannel`:
    where its output goes.
  * `Options.prepare`: all that comes before the first turn, up to a session that
    has begun to run a source text.  The output is opened only after the source
    has been read and the number of cells accepted.
  * `Command.run`: the command with its arguments in given surroundings, and its
    `Report`.
-/
import MooCode.Console.Options
import MooCode.Console.Session
import MooCode.Console.Terminal

namespace MooCode.Console

/-- What the command finds around it. -/
structure Surroundings where
  /-- The files. -/
  tree : FileTree
  /-- The bytes of standard input. -/
  stdin : List UInt8

/-- What the command leaves behind. -/
structure Report where
  /-- The exit status. -/
  status : Nat
  /-- The bytes on standard output. -/
  stdout : List UInt8
  /-- The bytes that the output of the run has taken, wherever it goes. -/
  received : List UInt8
  /-- The text on the error stream. -/
  stderr : String
  /-- The files. -/
  tree : FileTree

/-! ## Before the run -/

/-- The fault of a source file that cannot be read. -/
def unloadable (path : String) (e : SystemError) : Fault where
  cause := if e = .notFound then .fileNotFound else .internalError
  detail := path ++ ": " ++ e.message

/-- The text of the source file `path`; bytes that are no text do no harm. -/
def load (tree : FileTree) (path : String) : Except Fault String :=
  match tree.read path with
  | .ok content => .ok (String.ofList (Text.Utf8.decodeLossy content))
  | .error e => .error (unloadable path e)

/-- A machine of the asked capacity; a negative one is no capacity. -/
def Options.machine (o : Options) : Except Fault Machine :=
  Machine.blank o.memory.toNat

/-- Where the output of a run goes. -/
inductive Channel where
  /-- To standard output. -/
  | stdout
  /-- To a place in the tree. -/
  | place (place : Place)
  deriving DecidableEq

/-- The channel that the options ask for, with the tree made ready for it. -/
def openChannel (tree : FileTree) : Option String → Except Fault (Channel × FileTree)
  | none => .ok (.stdout, tree)
  | some path =>
    match tree.destination path with
    | .ok place => .ok (.place place, tree.truncate place)
    | .error e => .error (surroundings (path ++ ": " ++ e.message))

/-- An output to the channel: a terminal line by line, a file in blocks. -/
def Channel.output (tree : FileTree) : Channel → Output
  | stdout => .empty .line none
  | place p => .empty .block (tree.room p)

/-- A session of the run of `source` on an idle machine, and what is logged at its
    start. -/
def Session.begin (o : Options) (source : String) (m : Machine) (output : Output) :
    Except Fault Session := do
  let m ← m.start source
  let capacity := m.tape.capacity
  let log := #[Record.ofEntry (.started m.program.length capacity), announcement o.file capacity]
  return ⟨m, output, o.verbosity, log⟩

/-- What the options ask for: a listing to be printed, or a session that has begun.
    `load` gives the text of a source file, and `opens` an output and where it
    goes. -/
def Options.prepare {m : Type → Type} [Monad m] {α : Type} (o : Options)
    (load : String → ExceptT Fault m String)
    (opens : Option String → ExceptT Fault m (α × Output)) :
    ExceptT Fault m (String ⊕ α × Session) := do
  let source ← load o.file
  if o.list then return .inl (Program.ofSource source).listing
  let machine ← o.machine
  let (channel, output) ← opens o.output
  return .inr (channel, ← Session.begin o source machine output)

/-- A source file of the tree. -/
def loadSource (path : String) : ExceptT Fault (StateM FileTree) String := do
  load (← get) path

/-- An output into the tree. -/
def openOutput (output : Option String) : ExceptT Fault (StateM FileTree) (Channel × Output) := do
  let (channel, tree) ← openChannel (← get) output
  set tree
  return (channel, channel.output tree)

/-! ## The command -/

/-- The report of a command that only prints `text`. -/
def Report.printed (tree : FileTree) (text : String) : Report :=
  ⟨0, Text.Utf8.encode text.toList, [], "", tree⟩

/-- The report of a command that stopped before it could print. -/
def Report.refused (style : Style) (tree : FileTree) (f : Fault) : Report :=
  ⟨(Exit.failed f).status, [], [], (Exit.failed f).notice style, tree⟩

/-- The report of a session that stopped. -/
def Report.ofSession (style : Style) (tree : FileTree) (channel : Channel) (s : Session)
    (exit : Exit) : Report :=
  let bytes := s.output.sink.received.toList
  let stderr := s.shown style ++ exit.notice style
  match channel with
  | .stdout => ⟨exit.status, bytes, bytes, stderr, tree⟩
  | .place p => ⟨exit.status, [], bytes, stderr, tree.write p bytes⟩

/-- A session of the program in the file that the options name. -/
def Options.run (style : Style) (signal : Signal) (fuel : Nat) (o : Options) (w : Surroundings) :
    Option Report :=
  match o.prepare loadSource openOutput w.tree with
  | (.error f, tree) => some (.refused style tree f)
  | (.ok (.inl listing), tree) => some (.printed tree listing)
  | (.ok (.inr (channel, s)), tree) =>
    (s.run signal fuel 0 w.stdin).map fun r => .ofSession style tree channel r.1 r.2

/-- The command with the arguments `args`: its report, unless it takes more than
    `fuel` turns. -/
def Command.run (signal : Signal) (fuel : Nat) (args : List String) (w : Surroundings) :
    Option Report :=
  match Invocation.ofArguments args with
  | .help => some (.printed w.tree helpText)
  | .version => some (.printed w.tree versionText)
  | .mistaken => some ⟨2, [], [], usageLine, w.tree⟩
  | .run o => o.run .plain signal fuel w

end MooCode.Console
