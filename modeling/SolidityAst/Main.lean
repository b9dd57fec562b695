import SolidityAst.Cli.Run
import SolidityAst.Ledger.Instant
import Std.Time.DateTime.Timestamp

/-!
The command line.

The files below the current directory, and those that arguments name by absolute paths, are read before
the run; what the run adds or changes is written after it. No program can be started from here, so no
file counts as executable.
-/
namespace SolidityAst

def placeOf (path : String) : Place := (Path.names (Path.clean path)).filter (· ≠ "")

/-- Reads what lies at a path into the tree. Links to directories are not followed. -/
partial def gather (t : FileTree) (place : Place) (path : String) : IO FileTree := do
  let real ← IO.FS.realPath path
  unless ← real.pathExists do
    return t
  match (← real.metadata).type with
  | .dir =>
    let mut t := (t.ensureAbove place).insert place .directory
    for e in ← real.readDir do
      let linked := (← e.path.symlinkMetadata).type matches .symlink
      unless linked && (← e.path.isDir) do
        t ← gather t (place ++ [e.fileName]) e.path.toString
    return t
  | .file => return (t.ensureAbove place).insert place (.file (← IO.FS.readBinFile path).toList false)
  | _ => return t

def store (before after : FileTree) : IO Unit := do
  for (place, node) in after.entries do
    unless before.get? place = some node do
      let path := "/" ++ "/".intercalate place
      match node with
      | .directory => IO.FS.createDirAll path
      | .file content _ => IO.FS.writeBinFile path ⟨content.toArray⟩
      | .link _ => pure ()

def environment : IO Environment := do
  let mut env : Environment := []
  for name in ["HOME", "PATH", "NO_COLOR"] ++ Settings.variableNames do
    if let some value ← IO.getEnv name then
      env := env.set name value
  return env

def stamp : IO String := do
  let now ← Std.Time.Timestamp.now
  let text := (Ledger.Instant.mk now.toNanosecondsSinceUnixEpoch.val).text
  return String.ofList <| (text.toList.take 19).map fun c =>
    if c = 'T' then '_' else if c = ':' then '-' else c

end SolidityAst

open SolidityAst in
def main (arguments : List String) : IO UInt32 := do
  let here := (← IO.currentDir).toString
  let cwd := placeOf here
  let before ← (here :: arguments.filter Path.isAbsolute).foldlM
    (fun t path => gather t (placeOf path) path) FileTree.empty
  let out ← IO.getStdout
  let err ← IO.getStderr
  let surroundings : Cli.Surroundings :=
    { machine := ⟨cwd, ← environment, fun _ => none⟩
      server := .unreachable
      outTerminal := ← out.isTty
      errTerminal := ← err.isTty
      stamp := ← stamp
      tag := toString (← IO.rand 0 4294967295)
      elapsed := ⟨0⟩ }
  let ending := Cli.run surroundings before arguments
  store before ending.tree
  out.putStr ending.stdout
  err.putStr ending.stderr
  return ending.status.toUInt32
