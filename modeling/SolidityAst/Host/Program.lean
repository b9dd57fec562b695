import SolidityAst.Failure
import SolidityAst.FileTree.Operations
import SolidityAst.Host.Environment
import SolidityAst.Text.Quoted

/-!
Finding and starting programs.

What an executable file does is given from outside, as a function of its content. A name without a
slash is looked up along `PATH`; a hit through a relative entry of `PATH` is refused.
-/
namespace SolidityAst.Host

open Text

structure Completion where
  stdout : Bytes
  stderr : Bytes
  status : Nat
  milliseconds : Nat

/-- What an executable file does with arguments and input; nothing when its content is no program. -/
abbrev Programs := Bytes → Option (List String → Bytes → FileTree → Completion × FileTree)

structure Machine where
  cwd : Place
  env : Environment
  programs : Programs

namespace Machine

def cwdPath (m : Machine) : String := "/" ++ "/".intercalate m.cwd

/-- The directories of `PATH`; an empty entry is the current directory. -/
def searchPath (m : Machine) : List String :=
  match m.env.get "PATH" with
  | "" => []
  | path => (fields ':' path).map fun dir => if dir = "" then "." else dir

def unusable (name reason : String) : Failure := .told ("exec: " ++ quoted name ++ ": " ++ reason)

def find (m : Machine) (t : FileTree) (name : String) : Except Failure String :=
  let missing : Except Failure String :=
    .error (unusable name "executable file not found in $PATH")
  if name = "" || name = "." || name = ".." then missing
  else
    match (m.searchPath.map fun dir => Path.join [dir, name]).find? (t.isExecutable m.cwd) with
    | none => missing
    | some path =>
      if Path.isAbsolute path then .ok path
      else .error (unusable name "cannot run executable found relative to current directory")

def commandPath (m : Machine) (t : FileTree) (command : String) : Except Failure String :=
  if Path.base command = command then m.find t command
  else if command = "" then .error (.told "exec: no command")
  else .ok command

def executable (m : Machine) (t : FileTree) (path : String) : Except Errno Bytes :=
  match t.status m.cwd path with
  | .error e => .error e
  | .ok (.file content true) => .ok content
  | .ok _ => .error .denied

/-- Starts a command and waits for its end. Nothing is started once the work is cancelled. -/
def run (m : Machine) (t : FileTree) (cancelled : Bool) (command : String) (arguments : List String)
    (input : Bytes) : Except Failure Completion × FileTree :=
  match m.commandPath t command with
  | .error e => (.error e, t)
  | .ok path =>
    if cancelled then (.error (.base .canceled), t)
    else
      match m.executable t path with
      | .error e => (.error (.base (.file ⟨"fork/exec", path, e⟩)), t)
      | .ok content =>
        match m.programs content with
        | none => (.error (.base (.file ⟨"fork/exec", path, .badFormat⟩)), t)
        | some act =>
          let (completion, t) := act arguments input t
          (.ok completion, t)

end Machine

end SolidityAst.Host
