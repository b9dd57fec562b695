import SolidityAst.Assoc
import SolidityAst.Json.Value
import SolidityAst.Source.Position
import SolidityAst.Source.Range

/-!
Locations in a tree.

Every object of a tree that carries a source range under `src` and nothing yet under `loc` gets the
location of that range there. Nothing else of the tree changes.
-/
namespace SolidityAst

open Source

def Source.Position.toJson (p : Position) : Json :=
  .object [("line", .int p.line), ("column", .int p.column)]

def Source.Location.toJson (l : Location) : Json :=
  .object [("start", l.start.toJson), ("end", l.finish.toJson)]

namespace Ast

/-- The range that an object carries under `src`. -/
def rangeOf? (members : List (String × Json)) : Option Range :=
  match Assoc.find? "src" members with
  | some (.string s) => Range.parse? s
  | _ => none

/-- The location that an object is to get: that of its range, unless it has something under `loc`. -/
def missingLocation? (index : LineIndex) (members : List (String × Json)) : Option Location :=
  if (Assoc.find? "loc" members).isSome then none
  else (rangeOf? members).map fun r => index.location r.start r.stop

mutual

def annotate (index : LineIndex) : Json → Json
  | .array items => .array (annotateItems index items)
  | .object members =>
    match missingLocation? index members with
    | some l => .object (Assoc.insert "loc" l.toJson (annotateMembers index members))
    | none => .object (annotateMembers index members)
  | v => v

def annotateItems (index : LineIndex) : List Json → List Json
  | [] => []
  | v :: vs => annotate index v :: annotateItems index vs

def annotateMembers (index : LineIndex) : List (String × Json) → List (String × Json)
  | [] => []
  | (k, v) :: ms => (k, annotate index v) :: annotateMembers index ms

end

end Ast

end SolidityAst
