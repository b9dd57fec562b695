/-!
Compiler executables.
-/
namespace SolidityAst.Solc

/-- A compiler executable. The version is empty when it is not known. -/
structure Binary where
  path : String
  version : String
  deriving DecidableEq, Repr

def Binary.text (b : Binary) : String :=
  if b.version = "" then b.path else s!"{b.path} ({b.version})"

end SolidityAst.Solc
