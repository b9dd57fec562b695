import SolidityAst.Failure
import SolidityAst.FileTree.Walk
import SolidityAst.Text.Blank

/-!
Finding the sources of a directory.

A directory is searched at all depths. Patterns exclude whole path segments: one name excludes every
path in which it occurs, several names exclude the paths that start with them. What lies below an
excluded directory is not looked at.
-/
namespace SolidityAst.Batch

open Text

def stripSlashes (pattern : String) : String := String.ofList (trimWhile (· == '/') pattern.toList)

def excludes (relative pattern : String) : Bool :=
  let p := stripSlashes pattern
  if p = "" then false
  else if p.toList.contains '/' then relative = p || startsWith relative (p ++ "/")
  else (fields '/' relative).contains p

def isExcluded (relative : String) (patterns : List String) : Bool :=
  patterns.any (excludes relative)

/-- Whether a name ends with one of the extensions; an empty extension does not count. -/
def hasExtension (name : String) (extensions : List String) : Bool :=
  extensions.any fun e => e ≠ "" && endsWith name e

/-- The extensions to look for; sources are looked for when none is given. -/
def wantedExtensions (extensions : List String) : List String :=
  if extensions.isEmpty then [".sol"] else extensions

/-- Takes the path of every source that a walk from `root` comes to. -/
def finder (root : String) (extensions exclude : List String) : FileTree.Visitor (List String) Failure where
  entry path name node files :=
    let relative := Path.relative root path
    if relative = "." then
      (if node.isDirectory then .goOn else .stop (.told s!"{root} is not a directory"), files)
    else if isExcluded relative exclude then (if node.isDirectory then .skip else .goOn, files)
    else if node.isDirectory || !hasExtension name extensions then (.goOn, files)
    else (.goOn, files ++ [path])
  failure _ e files := (.stop (.base (.file e)), files)

/-- The paths of the sources below `root`, in the order in which a walk comes to them. -/
def gather (t : FileTree) (cwd : Place) (root : String) (extensions exclude : List String) :
    Except Failure (List String) :=
  t.walk cwd (finder root (wantedExtensions extensions) exclude) root []

def discover (t : FileTree) (cwd : Place) (root : String) (extensions exclude : List String) :
    Except Failure (List String) :=
  match gather t cwd root extensions exclude with
  | .ok files => .ok (files.mergeSort (· ≤ ·))
  | .error f => .error (.during ("walk " ++ root) f)

end SolidityAst.Batch
