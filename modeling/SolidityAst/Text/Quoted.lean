import SolidityAst.Text.Printable
import SolidityAst.Text.Utf8

/-!
Texts in double quotes.

Printable characters stand for themselves; a quote and a backslash are escaped, and so is every
character that would not be seen, by its short escape where it has one and by its code otherwise.
-/
namespace SolidityAst.Text

/-- The lower-case hexadecimal digit of a value below 16. -/
def hexDigit (n : Nat) : Char :=
  if n < 10 then Char.ofNat ('0'.toNat + n) else Char.ofNat ('a'.toNat + (n - 10))

/-- The last `width` hexadecimal digits of a number. -/
def hexDigits : (width : Nat) → Nat → List Char
  | 0, _ => []
  | width + 1, n => hexDigit (n / Nat.pow 16 width % 16) :: hexDigits width n

def hexByte (b : UInt8) : List Char := hexDigits 2 b.toNat

def hex (bs : Bytes) : String := String.ofList (bs.flatMap hexByte)

namespace Quoted

def escape (c : Char) : List Char :=
  if c = '\x07' then ['\\', 'a']
  else if c = '\x08' then ['\\', 'b']
  else if c = '\x0C' then ['\\', 'f']
  else if c = '\n' then ['\\', 'n']
  else if c = '\r' then ['\\', 'r']
  else if c = '\t' then ['\\', 't']
  else if c = '\x0B' then ['\\', 'v']
  else if c.toNat < 0x20 || c.toNat = 0x7F then '\\' :: 'x' :: hexDigits 2 c.toNat
  else if c.toNat < 0x10000 then '\\' :: 'u' :: hexDigits 4 c.toNat
  else '\\' :: 'U' :: hexDigits 8 c.toNat

def rune : Rune → List Char
  | .stray b => '\\' :: 'x' :: hexByte b
  | .char c =>
    if c = '"' || c = '\\' then ['\\', c]
    else if isPrintable c then [c]
    else escape c

def bytes (bs : Bytes) : String :=
  String.ofList ('"' :: (Utf8.decode bs).flatMap rune ++ ['"'])

end Quoted

def quoted (s : String) : String :=
  String.ofList ('"' :: s.toList.flatMap (fun c => Quoted.rune (.char c)) ++ ['"'])

end SolidityAst.Text
