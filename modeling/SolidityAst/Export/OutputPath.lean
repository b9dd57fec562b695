import SolidityAst.Failure
import SolidityAst.Path

/-!
Where the tree of a source file is written.

The output tree follows the input tree: a file at a path below the input directory has its artifact at
the same path below the output directory, under its own name without the extension and with a suffix.
-/
namespace SolidityAst.Export

open Text

structure Naming where
  extension : String
  suffix : String
  deriving DecidableEq, Repr

/-- `X.sol` gives `X_ast.json`. -/
def Naming.default : Naming := ⟨".sol", "_ast.json"⟩

/-- A file name without the extension; a name that is nothing else keeps it. -/
def Naming.stem (n : Naming) (name : String) : String :=
  if n.extension = "" || name = n.extension then name
  else ((beforeEnd? n.extension.toList name.toList).map String.ofList).getD name

def Naming.artifact (n : Naming) (name : String) : String := n.stem name ++ n.suffix

def leaves (relative : String) : Bool := relative = ".." || startsWith relative "../"

/-- The path of the artifact of `file`, seen from the directory `cwd`. -/
def outputPath (cwd : String) (n : Naming) (file input output : String) : Except Failure String :=
  let file' := Path.absolute cwd file
  let relative := Path.relative (Path.absolute cwd input) file'
  if leaves relative then
    .error (.within (file ++ ": ") (.base .outsideInput) (" " ++ input))
  else .ok (Path.join [output, Path.dir relative, n.artifact (Path.base file')])

end SolidityAst.Export
