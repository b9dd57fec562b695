import SolidityAst.Json.Reader
import SolidityAst.Json.Value
import SolidityAst.Text.Quoted

/-!
Writing JSON.

Strings keep every character but those that must be escaped, and U+2028 and U+2029; a style may also
escape the characters that HTML gives a meaning. `compact` has no blanks at all; `indented` puts each
item of a container on a line of its own.
-/
namespace SolidityAst.Json

open Text

structure Style where
  /-- Whether `<`, `>` and `&` are escaped. -/
  escapeHtml : Bool

/-- Escapes only what JSON requires and the two line separators. -/
def Style.plain : Style := ⟨false⟩

def Style.html : Style := ⟨true⟩

def writeChar (style : Style) (c : Char) : List Char :=
  if c = '"' || c = '\\' then ['\\', c]
  else if c = '\x08' then ['\\', 'b']
  else if c = '\x0C' then ['\\', 'f']
  else if c = '\n' then ['\\', 'n']
  else if c = '\r' then ['\\', 'r']
  else if c = '\t' then ['\\', 't']
  else if c.toNat < 0x20 || (style.escapeHtml && (c = '<' || c = '>' || c = '&'))
      || c.toNat = 0x2028 || c.toNat = 0x2029 then '\\' :: 'u' :: hexDigits 4 c.toNat
  else [c]

/-- A rune inside a string; a byte that is part of no character is written as U+FFFD by its code. -/
def writeRune (style : Style) : Rune → List Char
  | .char c => writeChar style c
  | .stray _ => ['\\', 'u', 'f', 'f', 'f', 'd']

def writeString (style : Style) (s : String) (k : List Char) : List Char :=
  '"' :: (s.toList.flatMap (writeChar style) ++ '"' :: k)

def writeBytes (style : Style) (bs : Bytes) (k : List Char) : List Char :=
  '"' :: ((Utf8.decode bs).flatMap (writeRune style) ++ '"' :: k)

mutual

/-- A value without blanks, before `k`. -/
def write (style : Style) : Json → List Char → List Char
  | .null, k => "null".toList ++ k
  | .bool b, k => (if b then "true".toList else "false".toList) ++ k
  | .number literal, k => literal.toList ++ k
  | .string s, k => writeString style s k
  | .array items, k => '[' :: writeItems style items (']' :: k)
  | .object members, k => '{' :: writeMembers style members ('}' :: k)

/-- Items with a comma between each two, before `k`. -/
def writeItems (style : Style) : List Json → List Char → List Char
  | [], k => k
  | [v], k => write style v k
  | v :: w :: vs, k => write style v (',' :: writeItems style (w :: vs) k)

/-- Members with a comma between each two, before `k`. -/
def writeMembers (style : Style) : List (String × Json) → List Char → List Char
  | [], k => k
  | [(key, v)], k => writeString style key (':' :: write style v k)
  | (key, v) :: m :: ms, k =>
    writeString style key (':' :: write style v (',' :: writeMembers style (m :: ms) k))

end

def compact (style : Style) (v : Json) : String := String.ofList (write style v [])

/-- A line break and the indentation of a level, before `k`. -/
def newline (indent : List Char) (level : Nat) (k : List Char) : List Char :=
  '\n' :: ((List.replicate level indent).flatten ++ k)

mutual

/-- A value with its containers spread over lines, before `k`. -/
def writeSpread (style : Style) (indent : List Char) (level : Nat) : Json → List Char → List Char
  | .null, k => "null".toList ++ k
  | .bool b, k => (if b then "true".toList else "false".toList) ++ k
  | .number literal, k => literal.toList ++ k
  | .string s, k => writeString style s k
  | .array [], k => '[' :: ']' :: k
  | .array (v :: vs), k =>
    '[' :: newline indent (level + 1)
      (spreadItems style indent (level + 1) (v :: vs) (newline indent level (']' :: k)))
  | .object [], k => '{' :: '}' :: k
  | .object (m :: ms), k =>
    '{' :: newline indent (level + 1)
      (spreadMembers style indent (level + 1) (m :: ms) (newline indent level ('}' :: k)))

/-- Items on lines of their own, before `k`. -/
def spreadItems (style : Style) (indent : List Char) (level : Nat) : List Json → List Char → List Char
  | [], k => k
  | [v], k => writeSpread style indent level v k
  | v :: w :: vs, k =>
    writeSpread style indent level v
      (',' :: newline indent level (spreadItems style indent level (w :: vs) k))

/-- Members on lines of their own, before `k`. -/
def spreadMembers (style : Style) (indent : List Char) (level : Nat) :
    List (String × Json) → List Char → List Char
  | [], k => k
  | [(key, v)], k => writeString style key (':' :: ' ' :: writeSpread style indent level v k)
  | (key, v) :: m :: ms, k =>
    writeString style key (':' :: ' ' :: writeSpread style indent level v
      (',' :: newline indent level (spreadMembers style indent level (m :: ms) k)))

end

/-- A value with its containers spread over lines; with an empty indentation nothing is spread. -/
def indented (style : Style) (indent : String) (v : Json) : String :=
  if indent = "" then compact style v
  else String.ofList (writeSpread style indent.toList 0 v [])

/-! ## Values that cannot be written -/

mutual

def invalidNumber? : Json → Option String
  | .number literal => if readNumber literal.toList = some (literal, []) then none else some literal
  | .array items => invalidItem? items
  | .object members => invalidMember? members
  | .null | .bool _ | .string _ => none

def invalidItem? : List Json → Option String
  | [] => none
  | v :: vs => (invalidNumber? v).or (invalidItem? vs)

def invalidMember? : List (String × Json) → Option String
  | [] => none
  | (_, v) :: ms => (invalidNumber? v).or (invalidMember? ms)

end

end SolidityAst.Json
