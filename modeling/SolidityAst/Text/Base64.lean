import SolidityAst.Text.Utf8

/-!
Bytes in base 64, with padding.
-/
namespace SolidityAst.Text.Base64

def digit? (c : Char) : Option Nat :=
  if 'A' ≤ c && c ≤ 'Z' then some (c.toNat - 'A'.toNat)
  else if 'a' ≤ c && c ≤ 'z' then some (c.toNat - 'a'.toNat + 26)
  else if '0' ≤ c && c ≤ '9' then some (c.toNat - '0'.toNat + 52)
  else if c == '+' then some 62
  else if c == '/' then some 63
  else none

/-- The bytes of groups of four digits; only the last group may be padded. -/
def groups : List Char → Option Bytes
  | [] => some []
  | [a, b, '=', '='] => do
    let n := (← digit? a) * 64 + (← digit? b)
    return [(n / 16).toUInt8]
  | [a, b, c, '='] => do
    let n := ((← digit? a) * 64 + (← digit? b)) * 64 + (← digit? c)
    return [(n / 1024).toUInt8, (n / 4 % 256).toUInt8]
  | a :: b :: c :: d :: cs => do
    let n := (((← digit? a) * 64 + (← digit? b)) * 64 + (← digit? c)) * 64 + (← digit? d)
    let rest ← groups cs
    return (n / 65536).toUInt8 :: (n / 256 % 256).toUInt8 :: (n % 256).toUInt8 :: rest
  | _ => none

/-- The bytes of a text; line breaks in it do not count. -/
def decode (s : String) : Option Bytes :=
  groups (s.toList.filter fun c => c != '\n' && c != '\r')

end SolidityAst.Text.Base64
