/-
  Moo-code console — files.

  * `FileTree`: the files and directories around the command, and the directory
    it works in.
  * `FileTree.read path`: the content of a file, and `FileTree.create path`: an
    empty file, ready to be written to.
  * `SystemError`: why a file cannot be used, with its text.

  A path is followed name by name.  Every name but the last one has to be that of
  a directory, `.` stays and `..` goes up.
-/
import MooCode.Fault

namespace MooCode.Console

/-- Why a file cannot be used. -/
inductive SystemError where
  /-- There is nothing under this name. -/
  | notFound
  /-- The path goes on after something that is no directory. -/
  | notDirectory
  /-- A directory is neither read nor written. -/
  | isDirectory
  /-- There is no room for more bytes. -/
  | noSpace
  deriving DecidableEq

/-- The text of a system error. -/
def SystemError.message : SystemError → String
  | notFound => "No such file or directory (os error 2)"
  | notDirectory => "Not a directory (os error 20)"
  | isDirectory => "Is a directory (os error 21)"
  | noSpace => "No space left on device (os error 28)"

/-- What stands under a name. -/
inductive Node where
  /-- A file with its content. -/
  | file (content : List UInt8)
  /-- A directory. -/
  | directory
  /-- A device, which holds nothing and takes so many bytes, or any number. -/
  | device (room : Option Nat)
  deriving DecidableEq

/-- A place in the tree: the names from the root down. -/
abbrev Place := List String

/-- The files and directories around the command. -/
structure FileTree where
  /-- What stands where. -/
  nodes : List (Place × Node)
  /-- The directory that the command works in. -/
  home : Place
  deriving DecidableEq

namespace FileTree

/-- What stands in the place `p`; the root is a directory. -/
def find? (t : FileTree) (p : Place) : Option Node :=
  if p = [] then some .directory else t.nodes.lookup p

/-- The tree with `n` in the place `p`. -/
def insert (t : FileTree) (p : Place) (n : Node) : FileTree :=
  { t with nodes := (p, n) :: t.nodes.filter fun e => e.1 ≠ p }

/-- The tree with `n` at the end of the names `names` below the place `p`, and
    directories before it. -/
def plant (t : FileTree) (p : Place) (n : Node) : (names : List String) → FileTree
  | [] => t
  | [name] => t.insert (p ++ [name]) n
  | name :: names => (t.insert (p ++ [name]) .directory).plant (p ++ [name]) n names

/-! ## Paths -/

/-- Where the names `names` lead from the place `p`.  The last one need not be
    there. -/
def follow (t : FileTree) (p : Place) : (names : List String) → Except SystemError Place
  | [] => .ok p
  | name :: names =>
    if t.find? p ≠ some .directory then .error .notDirectory
    else if name = "" ∨ name = "." then t.follow p names
    else if name = ".." then t.follow p.dropLast names
    else if (t.find? (p ++ [name])).isNone ∧ names ≠ [] then .error .notFound
    else t.follow (p ++ [name]) names

/-- The place that a path starts from, and its names. -/
def names (t : FileTree) (path : String) : Place × List String :=
  match (path.toList.splitOn '/').map String.ofList with
  | "" :: names => ([], names)
  | names => (t.home, names)

/-- Where a path leads. -/
def resolve (t : FileTree) (path : String) : Except SystemError Place :=
  t.follow (t.names path).1 (t.names path).2

/-- The names up to the directory that holds the last one, if nothing but slashes
    comes after that. -/
def parentNames? (names : List String) : Option (List String) :=
  match names.reverse with
  | "" :: rest => some ((rest.dropWhile (· = "")).drop 1).reverse
  | _ => none

/-! ## Reading and writing -/

/-- The content of the file that `path` leads to. -/
def read (t : FileTree) (path : String) : Except SystemError (List UInt8) := do
  match t.find? (← t.resolve path) with
  | none => .error .notFound
  | some (.file content) => .ok content
  | some .directory => .error .isDirectory
  | some (.device _) => .ok []

/-- Where a file to be written at `path` is.  A path with a slash at its end can
    only be that of a directory. -/
def destination (t : FileTree) (path : String) : Except SystemError Place := do
  let (start, names) := t.names path
  if let some parent := parentNames? names then
    let _ ← t.follow start (parent ++ ["."])
    .error .isDirectory
  else
    let place ← t.follow start names
    if t.find? place = some .directory then .error .isDirectory else .ok place

/-- The place `p` made ready to be written to: a file is emptied or created, a
    device stays. -/
def truncate (t : FileTree) (p : Place) : FileTree :=
  match t.find? p with
  | some (.device _) => t
  | _ => t.insert p (.file [])

/-- How many bytes can be written to the place `p`, if there is a limit. -/
def room (t : FileTree) (p : Place) : Option Nat :=
  match t.find? p with
  | some (.device room) => room
  | _ => none

/-- The bytes `content` written to the place `p`, made ready before. -/
def write (t : FileTree) (p : Place) (content : List UInt8) : FileTree :=
  match t.find? p with
  | some (.file _) => t.insert p (.file content)
  | _ => t

end FileTree

end MooCode.Console
