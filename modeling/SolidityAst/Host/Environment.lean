import SolidityAst.Assoc

/-!
Environment variables.
-/
namespace SolidityAst

abbrev Environment := List (String × String)

namespace Environment

/-- The value of a variable; one that is not set reads as empty. -/
def get (env : Environment) (name : String) : String := (Assoc.find? name env).getD ""

def set (env : Environment) (name value : String) : Environment := Assoc.insert name value env

/-- Whether a variable is set, be it to nothing. -/
def isSet (env : Environment) (name : String) : Bool := (Assoc.find? name env).isSome

def home? (env : Environment) : Option String :=
  let home := env.get "HOME"
  if home = "" then none else some home

end Environment

end SolidityAst
