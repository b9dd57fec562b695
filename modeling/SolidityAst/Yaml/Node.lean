import SolidityAst.Yaml.Token

/-!
The values of a YAML document.

A value may be anchored; an alias stands for the anchored value. Since an alias may stand inside the
value it names, anchored values are kept in a table and aliases refer to it by number.
-/
namespace SolidityAst.Yaml

/-- A value and the line on which it starts. A tag is kept only when it is written and says
something. -/
inductive Node where
  | scalar (line : Nat) (tag : Option String) (style : Style) (text : String)
  | sequence (line : Nat) (tag : Option String) (items : List Node)
  | mapping (line : Nat) (tag : Option String) (entries : List (Node × Node))
  /-- An alias; every alias has its own number. -/
  | reference (line : Nat) (name : String) (number target : Nat)
  deriving Repr

namespace Node

def line : Node → Nat
  | scalar line _ _ _ => line
  | sequence line _ _ => line
  | mapping line _ _ => line
  | reference line _ _ _ => line

/-- The text of a scalar or the name of an alias; a collection has none. -/
def text : Node → String
  | scalar _ _ _ text => text
  | reference _ name _ _ => name
  | _ => ""

/-- Whether two values are both scalars, both aliases, both sequences or both mappings. -/
def sameKind : Node → Node → Bool
  | scalar .., scalar .. => true
  | sequence .., sequence .. => true
  | mapping .., mapping .. => true
  | reference .., reference .. => true
  | _, _ => false

def nothing (line : Nat) : Node := scalar line none .plain ""

end Node

/-- A document: its value, the anchored values by number, and the number of its tokens. -/
structure Document where
  root : Node
  anchored : List (Nat × Node)
  size : Nat

def Document.target (d : Document) (n : Nat) : Node := (d.anchored.lookup n).getD (.nothing 0)

end SolidityAst.Yaml
