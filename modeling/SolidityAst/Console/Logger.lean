import SolidityAst.Console.Event
import SolidityAst.Failure
import SolidityAst.FileTree.Operations

/-!
The log of a run.

Messages of every level go to the log file while one is open. What the console shows does not depend on
the file, only on the level and on whether the log is verbose.
-/
namespace SolidityAst.Console

structure Logger where
  verbose : Bool
  file : Option Place

namespace Logger

structure Opened where
  outcome : Except Failure String
  logger : Logger
  tree : FileTree

/-- Opens the log file with a name and a time stamp in a directory, `logs` unless it is given. A log
whose file cannot be opened stays as it was. -/
def openFile (l : Logger) (t : FileTree) (cwd : Place) (dir name stamp : String) : Opened :=
  let dir := if dir = "" then "logs" else dir
  let refused (doing : String) (e : FileError) (t : FileTree) : Opened :=
    ⟨.error (.during doing (.base (.file e))), l, t⟩
  match t.makeDirectories cwd dir with
  | (.error e, t) => refused "failed to create logs directory" e t
  | (.ok (), t) =>
    let path := Path.join [dir, s!"{name}_{stamp}.log"]
    match t.openAtEnd cwd path with
    | .error e => refused "failed to open log file" e t
    | .ok (place, t) => ⟨.ok path, { l with file := some place }, t⟩

def close (l : Logger) : Logger := { l with file := none }

def keep (l : Logger) (t : FileTree) (events : List Event) : FileTree :=
  match l.file with
  | some place => t.append place (Text.Utf8.encode (logFile events))
  | none => t

end Logger

end SolidityAst.Console
