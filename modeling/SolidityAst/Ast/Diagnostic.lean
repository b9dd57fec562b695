import SolidityAst.Json.Writer

/-!
What the compiler finds wrong with a source.
-/
namespace SolidityAst.Ast

/-- One problem that the compiler reports, with the line and column at which it starts. -/
structure Diagnostic where
  severity : String
  kind : String
  errorCode : String
  message : String
  formattedMessage : String
  line : Int
  column : Int
  deriving DecidableEq, Repr

def Diagnostic.text (d : Diagnostic) : String :=
  s!"{d.line}:{d.column}: {d.kind}: {d.message}"

/-- The members of a diagnostic; an empty code and an empty formatted message are left out. -/
def Diagnostic.members (d : Diagnostic) : List (String × Json) :=
  [("severity", .string d.severity), ("type", .string d.kind)]
    ++ (if d.errorCode = "" then [] else [("errorCode", .string d.errorCode)])
    ++ [("message", .string d.message)]
    ++ (if d.formattedMessage = "" then [] else [("formattedMessage", .string d.formattedMessage)])
    ++ [("line", .int d.line), ("column", .int d.column)]

def Diagnostic.toJson (d : Diagnostic) : Json := .object d.members

/-- A source that the compiler rejects. No list of diagnostics is told apart from an empty one. -/
structure SyntaxError where
  path : String
  diagnostics : Option (List Diagnostic)
  deriving DecidableEq, Repr

namespace SyntaxError

def message (e : SyntaxError) : String :=
  match e.diagnostics.getD [] with
  | [] => s!"parsing error in {e.path}"
  | ds =>
    let lines := ds.map fun d => s!"{e.path}:{d.text}"
    s!"parsing error in {e.path}: {ds.length} error(s)\n" ++ "\n".intercalate lines

/-- The diagnostics as a JSON array, or null when there is no list. -/
def toJson (e : SyntaxError) : Json :=
  match e.diagnostics with
  | none => .null
  | some ds => .array (ds.map Diagnostic.toJson)

end SyntaxError

end SolidityAst.Ast
