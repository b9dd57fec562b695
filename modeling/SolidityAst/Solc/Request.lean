import SolidityAst.Json.Writer

/-!
The question to the compiler: one source, and of the answer only its tree.
-/
namespace SolidityAst.Solc

open Json

structure Request where
  /-- The name of the source within the request. -/
  name : String
  content : Bytes
  /-- Whether the compiler is to stop once the source is parsed. -/
  stopAfterParsing : Bool
  deriving DecidableEq, Repr

/-- The settings of a request: when to stop, and that of every file the tree is wanted. -/
def Request.settings (r : Request) : Json :=
  .object <|
    (if r.stopAfterParsing then [("stopAfter", .string "parsing")] else [])
      ++ [("outputSelection", .object [("*", .object [("", .array [.string "ast"])])])]

def Request.chars (r : Request) : List Char :=
  "\x7b\"language\":\"Solidity\",\"sources\":\x7b".toList
    ++ writeString .html r.name
      (":\x7b\"content\":".toList
        ++ writeBytes .html r.content
          ("\x7d\x7d,\"settings\":".toList ++ write .html r.settings ['}']))

def Request.text (r : Request) : String := String.ofList r.chars

end SolidityAst.Solc
