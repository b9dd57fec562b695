import SolidityAst.Assoc
import SolidityAst.Json.Value
import SolidityAst.Text.Blank
import SolidityAst.Text.Quoted

/-!
Reading JSON.

Each reader takes the characters before it and gives a value with the characters after it, or
nothing when the text does not start as it should. Containers may nest up to `maxDepth` levels.
`readRaw` checks a value and keeps its text as it stands.
-/
namespace SolidityAst.Json

open Text

abbrev Read (α : Type) := List Char → Option (α × List Char)

def maxDepth : Nat := 10000

def isSpace (c : Char) : Bool := c = ' ' || c = '\t' || c = '\n' || c = '\r'

def skipSpace (cs : List Char) : List Char := cs.dropWhile isSpace

/-! ## Strings -/

/-- A piece of a string: a character, or a UTF-16 unit given by its code. -/
inductive Piece where
  | char (c : Char)
  | unit (n : Nat)

def hex4? (a b c d : Char) : Option Nat := do
  let a ← digit a
  let b ← digit b
  let c ← digit c
  let d ← digit d
  return a * 4096 + b * 256 + c * 16 + d
where
  /-- The value of a hexadecimal digit. -/
  digit (c : Char) : Option Nat :=
    if isDigit c then some (c.toNat - '0'.toNat)
    else if 'a' ≤ c && c ≤ 'f' then some (c.toNat - 'a'.toNat + 10)
    else if 'A' ≤ c && c ≤ 'F' then some (c.toNat - 'A'.toNat + 10)
    else none

def shortEscape? (c : Char) : Option Char :=
  if c = '"' || c = '\\' || c = '/' then some c
  else if c = 'b' then some '\x08'
  else if c = 'f' then some '\x0C'
  else if c = 'n' then some '\n'
  else if c = 'r' then some '\r'
  else if c = 't' then some '\t'
  else none

def readPieces : Read (List Piece)
  | [] => none
  | '"' :: rest => some ([], rest)
  | '\\' :: 'u' :: a :: b :: c :: d :: rest =>
    match hex4? a b c d with
    | none => none
    | some n => (readPieces rest).map fun (ps, rest) => (.unit n :: ps, rest)
  | '\\' :: c :: rest =>
    match shortEscape? c with
    | none => none
    | some c => (readPieces rest).map fun (ps, rest) => (.char c :: ps, rest)
  | c :: rest =>
    if c.toNat < 0x20 || c = '\\' then none
    else (readPieces rest).map fun (ps, rest) => (.char c :: ps, rest)

def isHighSurrogate (n : Nat) : Bool := 0xD800 ≤ n && n < 0xDC00

def isLowSurrogate (n : Nat) : Bool := 0xDC00 ≤ n && n < 0xE000

/-- The characters of pieces: surrogate pairs are joined and a lone half is U+FFFD. -/
def joinPieces : List Piece → List Char
  | [] => []
  | .char c :: ps => c :: joinPieces ps
  | .unit n :: .unit m :: ps =>
    if isHighSurrogate n && isLowSurrogate m then
      Char.ofNat (0x10000 + (n - 0xD800) * 1024 + (m - 0xDC00)) :: joinPieces ps
    else unitChar n :: joinPieces (.unit m :: ps)
  | .unit n :: ps => unitChar n :: joinPieces ps
where
  /-- The character of a unit that is not half of a pair. -/
  unitChar (n : Nat) : Char :=
    if isHighSurrogate n || isLowSurrogate n then '�' else Char.ofNat n

def readString : Read String := fun cs =>
  (readPieces cs).map fun (ps, rest) => (String.ofList (joinPieces ps), rest)

/-! ## Numbers -/

def readDigits : Read (List Char) := fun cs =>
  if (cs.takeWhile isDigit).isEmpty then none
  else some (cs.takeWhile isDigit, cs.dropWhile isDigit)

/-- The integer part of a number: a zero, or digits that do not start with one. -/
def readWhole : Read (List Char)
  | '0' :: rest => some (['0'], rest)
  | cs => readDigits cs

def readFraction : Read (List Char)
  | '.' :: rest => (readDigits rest).map fun (ds, rest) => ('.' :: ds, rest)
  | cs => some ([], cs)

def readExponent : Read (List Char)
  | cs@(e :: rest) =>
    if e = 'e' || e = 'E' then
      match rest with
      | '+' :: rest => (readDigits rest).map fun (ds, rest) => (e :: '+' :: ds, rest)
      | '-' :: rest => (readDigits rest).map fun (ds, rest) => (e :: '-' :: ds, rest)
      | rest => (readDigits rest).map fun (ds, rest) => (e :: ds, rest)
    else some ([], cs)
  | [] => some ([], [])

def readMagnitude : Read (List Char) := fun cs => do
  let (whole, cs) ← readWhole cs
  let (fraction, cs) ← readFraction cs
  let (exponent, cs) ← readExponent cs
  return (whole ++ fraction ++ exponent, cs)

def readNumber : Read String
  | '-' :: rest => (readMagnitude rest).map fun (ds, rest) => (String.ofList ('-' :: ds), rest)
  | cs => (readMagnitude cs).map fun (ds, rest) => (String.ofList ds, rest)

/-! ## Values -/

def readScalar : Read Json
  | 'n' :: 'u' :: 'l' :: 'l' :: rest => some (.null, rest)
  | 't' :: 'r' :: 'u' :: 'e' :: rest => some (.bool true, rest)
  | 'f' :: 'a' :: 'l' :: 's' :: 'e' :: rest => some (.bool false, rest)
  | '"' :: rest => (readString rest).map fun (s, rest) => (.string s, rest)
  | cs => (readNumber cs).map fun (n, rest) => (.number n, rest)

/-- One item or more and the closing bracket; the fuel bounds the number of items. -/
def readItems {α : Type} (item : Read α) : (fuel : Nat) → Read (List α)
  | 0, _ => none
  | fuel + 1, cs =>
    match item (skipSpace cs) with
    | none => none
    | some (v, rest) =>
      match skipSpace rest with
      | ',' :: rest => (readItems item fuel rest).map fun (vs, rest) => (v :: vs, rest)
      | ']' :: rest => some ([v], rest)
      | _ => none

def readArray {α : Type} (item : Read α) (fuel : Nat) : Read (List α) := fun cs =>
  match skipSpace cs with
  | ']' :: rest => some ([], rest)
  | cs => readItems item fuel cs

def readMember {α : Type} (item : Read α) : Read (String × α)
  | '"' :: rest =>
    match readString rest with
    | none => none
    | some (key, rest) =>
      match skipSpace rest with
      | ':' :: rest => (item (skipSpace rest)).map fun (v, rest) => ((key, v), rest)
      | _ => none
  | _ => none

/-- One member or more and the closing brace; the fuel bounds the number of members. -/
def readMembers {α : Type} (item : Read α) : (fuel : Nat) → Read (List (String × α))
  | 0, _ => none
  | fuel + 1, cs =>
    match readMember item (skipSpace cs) with
    | none => none
    | some (m, rest) =>
      match skipSpace rest with
      | ',' :: rest => (readMembers item fuel rest).map fun (ms, rest) => (m :: ms, rest)
      | '}' :: rest => some ([m], rest)
      | _ => none

def readObject {α : Type} (item : Read α) (fuel : Nat) : Read (List (String × α)) := fun cs =>
  match skipSpace cs with
  | '}' :: rest => some ([], rest)
  | cs => readMembers item fuel cs

/-- A value whose containers nest at most `depth` levels. -/
def readValue (fuel : Nat) : (depth : Nat) → Read Json
  | 0, cs => readScalar cs
  | depth + 1, '[' :: rest =>
    (readArray (readValue fuel depth) fuel rest).map fun (vs, rest) => (.array vs, rest)
  | depth + 1, '{' :: rest =>
    (readObject (readValue fuel depth) fuel rest).map fun (ms, rest) =>
      (.object (Assoc.ofList ms), rest)
  | _ + 1, cs => readScalar cs

/-- The first value of a text; whatever follows it is left alone. -/
def read? (cs : List Char) : Option (Json × List Char) :=
  readValue cs.length maxDepth (skipSpace cs)

def readRaw (fuel depth : Nat) : Read (List Char) := fun cs =>
  (readValue fuel depth cs).map fun (_, rest) => (cs.take (cs.length - rest.length), rest)

/-- A value of at most `depth` levels, told by the number of its characters and of those behind it. -/
def readSpan (fuel depth : Nat) : Read (Nat × Nat) := fun cs =>
  (readRaw fuel depth cs).map fun (raw, rest) => ((raw.length, rest.length), rest)

/-- The part of a list that has a span in it. -/
def part {α : Type} (xs : List α) (span : Nat × Nat) : List α :=
  (xs.drop (xs.length - (span.1 + span.2))).take span.1

end SolidityAst.Json
