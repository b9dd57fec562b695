/-!
The tokens of a YAML stream.
-/
namespace SolidityAst.Yaml

inductive Style where
  | plain
  | quoted
  | block
  deriving DecidableEq, Repr

inductive TokenKind where
  | streamStart
  | streamEnd
  | version (major minor : Nat)
  | tagDirective (handle start : String)
  | documentStart
  | documentEnd
  | blockSequence
  | blockMapping
  | blockEnd
  | flowSequence
  | flowSequenceEnd
  | flowMapping
  | flowMappingEnd
  | blockEntry
  | flowEntry
  | key
  | value
  | reference (name : String)
  | anchor (name : String)
  | tag (handle suffix : String)
  | scalar (style : Style) (text : String)
  deriving DecidableEq, Repr

structure Token where
  kind : TokenKind
  line : Nat
  deriving DecidableEq, Repr

end SolidityAst.Yaml
