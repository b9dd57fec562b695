import SolidityAst.Solc.Binary
import SolidityAst.Solc.Request
import SolidityAst.Solc.Response

/-!
Asking a compiler.
-/
namespace SolidityAst.Solc

abbrev Runner := Binary → Request → Except Failure Bytes

def compile (runner : Option Runner) (binary : Binary) (request : Request) : Except Failure Response :=
  match runner with
  | none => .error (.told "solc runner is nil")
  | some run => run binary request >>= Response.parse

end SolidityAst.Solc
