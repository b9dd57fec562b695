import SolidityAst.Failure
import SolidityAst.FileTree.Operations
import SolidityAst.Json.Writer

/-!
Writing artifacts.

An artifact is written to a new file beside its target, which then takes the target's place. So the
target is never seen half-written, and when anything fails the new file is gone.
-/
namespace SolidityAst.Export

open Text

/-- The bytes of an artifact: the tree, indented, and a line feed. -/
def encode (indent : String) (root : Json) : Bytes :=
  Utf8.encode (Json.indented .plain indent root ++ "\n")

/-- The bytes of an artifact, unless the tree has a number that cannot be written. -/
def tryEncode (indent : String) (root : Json) : Except Failure Bytes :=
  match root.invalidNumber? with
  | some literal => .error (.told ("json: invalid number literal " ++ quoted literal))
  | none => .ok (encode indent root)

/-- Writes a file by way of a new one whose name ends with `tag`. -/
def replaceFile (t : FileTree) (cwd : Place) (tag path : String) (content : Bytes) :
    Except Failure Unit × FileTree :=
  let (dir, name) := Path.splitLast path
  let fresh := (if dir = "" then "./" else dir) ++ name ++ ".tmp-" ++ tag
  match t.create cwd fresh content with
  | .error e => (.error (.during "failed to create temp output file" (.base (.file e))), t)
  | .ok (place, t') =>
    match t'.rename cwd place fresh path with
    | .error e =>
      (.error (.during "failed to finalize output file" (.base (.file e))), t'.erase place)
    | .ok t'' => (.ok (), t'')

def placeFile (t : FileTree) (cwd : Place) (tag path : String) (content : Bytes) :
    Except Failure Unit × FileTree :=
  match t.makeDirectories cwd (Path.dir path) with
  | (.error e, t) => (.error (.during "failed to create output directory" (.base (.file e))), t)
  | (.ok (), t) => replaceFile t cwd tag path content

end SolidityAst.Export
