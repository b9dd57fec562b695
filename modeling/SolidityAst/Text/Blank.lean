/-!
Blank characters and trimming.

Two classes are in use: the White_Space characters of Unicode, which trimming removes, and the five
ASCII blanks that separate the words of a pragma.
-/
namespace SolidityAst.Text

/-- The White_Space characters of Unicode. -/
def isBlank (c : Char) : Bool :=
  let n := c.toNat
  (0x09 ≤ n && n ≤ 0x0D) || n == 0x20 || n == 0x85 || n == 0xA0 || n == 0x1680
    || (0x2000 ≤ n && n ≤ 0x200A) || n == 0x2028 || n == 0x2029 || n == 0x202F || n == 0x205F
    || n == 0x3000

/-- Tab, line feed, form feed, carriage return and space. -/
def isAsciiBlank (c : Char) : Bool :=
  c == '\t' || c == '\n' || c == '\x0C' || c == '\r' || c == ' '

def isDigit (c : Char) : Bool := '0' ≤ c && c ≤ '9'

/-- Drops the characters that satisfy `p` from the end. -/
def dropEndWhile (p : Char → Bool) (cs : List Char) : List Char :=
  (cs.reverse.dropWhile p).reverse

/-- Drops the characters that satisfy `p` from both ends. -/
def trimWhile (p : Char → Bool) (cs : List Char) : List Char :=
  dropEndWhile p (cs.dropWhile p)

def trimChars (cs : List Char) : List Char := trimWhile isBlank cs

def trim (s : String) : String := String.ofList (trimChars s.toList)

end SolidityAst.Text
