/-!
JSON values.

A number is its literal, so that it is written back as it was read. The members of an object stand in
the order in which they are written; objects that are read have them in increasing order of keys,
each key once.
-/
namespace SolidityAst

inductive Json where
  | null
  | bool (b : Bool)
  | number (literal : String)
  | string (s : String)
  | array (items : List Json)
  | object (members : List (String × Json))
  deriving Repr, Inhabited

namespace Json

def int (n : Int) : Json := .number (toString n)

end Json

end SolidityAst
