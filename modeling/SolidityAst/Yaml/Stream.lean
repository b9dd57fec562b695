import SolidityAst.Text.Utf8

/-!
The characters of a YAML stream.

A stream is UTF-8, or UTF-16 when its mark says so. It holds no control characters. Line breaks are
all read as line feeds, apart from the line and paragraph separators, which stay what they are.
-/
namespace SolidityAst.Yaml

open Text

def isAllowed (c : Char) : Bool :=
  let n := c.toNat
  n == 0x09 || n == 0x0A || n == 0x0D || (0x20 ≤ n && n ≤ 0x7E) || n == 0x85
    || (0xA0 ≤ n && n ≤ 0xD7FF) || (0xE000 ≤ n && n ≤ 0xFFFD) || 0x10000 ≤ n

def isBlank (c : Char) : Bool := c == ' ' || c == '\t'

def isBreak (c : Char) : Bool := c == '\n' || c.toNat == 0x2028 || c.toNat == 0x2029

/-- Whether a word ends before the given characters: at a blank, a break or the end. -/
def endsWord : List Char → Bool
  | [] => true
  | c :: _ => isBlank c || isBreak c

def isWord (c : Char) : Bool :=
  ('a' ≤ c && c ≤ 'z') || ('A' ≤ c && c ≤ 'Z') || ('0' ≤ c && c ≤ '9') || c == '_' || c == '-'

/-- Reads every line break but the separators as one line feed. -/
def normalizeBreaks : List Char → List Char
  | [] => []
  | '\r' :: '\n' :: cs => '\n' :: normalizeBreaks cs
  | c :: cs => (if c == '\r' || c.toNat == 0x85 then '\n' else c) :: normalizeBreaks cs

def ofUnits : List Nat → Option (List Char)
  | [] => some []
  | [u] => if 0xD800 ≤ u && u < 0xE000 then none else some [Char.ofNat u]
  | u :: v :: us =>
    if 0xD800 ≤ u && u < 0xDC00 then
      if 0xDC00 ≤ v && v < 0xE000 then
        (ofUnits us).map (Char.ofNat (0x10000 + (u - 0xD800) * 0x400 + (v - 0xDC00)) :: ·)
      else none
    else if 0xDC00 ≤ u && u < 0xE000 then none
    else (ofUnits (v :: us)).map (Char.ofNat u :: ·)

def units (unit : UInt8 → UInt8 → Nat) : Bytes → Option (List Nat)
  | [] => some []
  | [_] => none
  | a :: b :: bs => (units unit bs).map (unit a b :: ·)

/-- The characters of a stream in the encoding that its mark names. -/
def decodeStream : Bytes → Option (List Char)
  | 0xEF :: 0xBB :: 0xBF :: bs => if Utf8.valid bs then some (Utf8.chars bs) else none
  | 0xFF :: 0xFE :: bs => (units (fun a b => a.toNat + b.toNat * 256) bs).bind ofUnits
  | 0xFE :: 0xFF :: bs => (units (fun a b => a.toNat * 256 + b.toNat) bs).bind ofUnits
  | bs => if Utf8.valid bs then some (Utf8.chars bs) else none

/-- The characters of a stream; there are none when it holds what no stream may hold. -/
def readStream (bs : Bytes) : Option (List Char) :=
  match decodeStream bs with
  | none => none
  | some cs => if cs.all isAllowed then some (normalizeBreaks cs) else none

end SolidityAst.Yaml
