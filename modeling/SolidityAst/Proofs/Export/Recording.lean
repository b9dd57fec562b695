import SolidityAst.Proofs.Ast.Outcome
import SolidityAst.Proofs.Export.Independence
import SolidityAst.Proofs.Failure

/-!
What the ledger keeps of an export.

The entry of an export is filled in while the export goes on, and finished when it ends, at whatever step that
is.  It is compared here with what can be said of the export from outside: the source that could be read, the tree
that came of it, and the result.
-/
namespace SolidityAst.Export

open Text

section

variable {e : Exporter} {site : Site} {t : FileTree} {file input output : String} {parser : Parser}

end

-- A parser that fails without a text leaves the entry of a failed export without one.
example : ((Exporter.new (some fun _ _ => ⟨[], [], .error (.told "")⟩)).exportFile ⟨[], "1"⟩ sampleTree
    "in/A.sol" "in" "out").entries.map (fun entry => (entry.status, entry.error)) = [("failed", "")] := by
  decide +kernel

def rejection : Bytes :=
  Utf8.encode <|
    "\x7b\"errors\":[\x7b\"severity\":\"error\",\"type\":\"ParserError\",\"message\":\"m\","
      ++ "\"sourceLocation\":\x7b\"start\":0\x7d\x7d]\x7d"

end SolidityAst.Export
