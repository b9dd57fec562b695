import SolidityAst.Failure
import SolidityAst.Text.Fields

/-!
How a failure ends the program.
-/
namespace SolidityAst.Cli

open Text

/-- The exit status for a failure and what is shown of it. Cancelled work is silent; a rejected source
is shown with all its diagnostics, whatever was being done; files that failed were listed before. -/
def report (f : Failure) : Nat × String :=
  match f.cause with
  | .canceled => (130, "")
  | .rejected e =>
    (1, line ("Parsing error: " ++ e.path) ++ line (Json.indented .html "  " e.toJson))
  | .filesFailed => (1, "")
  | _ => (1, line ("Error: " ++ f.message))

end SolidityAst.Cli
