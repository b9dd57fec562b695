import SolidityAst.Text.Blank
import SolidityAst.Word

/-!
Integer numerals of 64 bits and the words for truth values.

A numeral is read digit by digit. The first character that is no digit makes it malformed; a value
that leaves the range ends the reading at once, whatever follows, with the nearest bound.
-/
namespace SolidityAst.Text

inductive Reading (α : Type) where
  | value (a : α)
  | malformed
  | outOfRange (nearest : α)
  deriving DecidableEq, Repr

namespace Reading

def value? {α : Type} : Reading α → Option α
  | value a => some a
  | _ => none

/-- The value, the nearest bound when it is out of range, or `d` when it is malformed. -/
def nearestOr {α : Type} (d : α) : Reading α → α
  | value a => a
  | malformed => d
  | outOfRange a => a

end Reading

namespace Numeral

def digit? (c : Char) : Option Nat :=
  if isDigit c then some (c.toNat - '0'.toNat)
  else if 'a' ≤ c && c ≤ 'z' then some (c.toNat - 'a'.toNat + 10)
  else if 'A' ≤ c && c ≤ 'Z' then some (c.toNat - 'A'.toNat + 10)
  else none

/-- The value of digits that follow others of the value `n`. -/
def valueFrom (n : Nat) (cs : List Char) : Nat :=
  cs.foldl (fun n c => n * 10 + (c.toNat - '0'.toNat)) n

def maxUnsigned : Nat := Word.size - 1

/-- Reads digits of `base` onto `n`. -/
def digits (base : Nat) (n : Nat) : List Char → Reading Nat
  | [] => .value n
  | c :: cs =>
    match digit? c with
    | none => .malformed
    | some d =>
      if base ≤ d then .malformed
      else if maxUnsigned < n * base + d then .outOfRange maxUnsigned
      else digits base (n * base + d) cs

def unsignedIn (base : Nat) (cs : List Char) : Reading Nat :=
  if cs.isEmpty then .malformed else digits base 0 cs

/-- Gives a magnitude its sign and keeps it within 64 bits. -/
def withSign (negative : Bool) : Reading Nat → Reading Int
  | .malformed => .malformed
  | .value n => bounded n
  | .outOfRange n => bounded n
where
  /-- The signed value, or the bound on its side. -/
  bounded (n : Nat) : Reading Int :=
    if negative then
      if Word.half < n then .outOfRange Word.least else .value (-(n : Int))
    else if Word.half ≤ n then .outOfRange Word.greatest
    else .value n

def signed (magnitude : List Char → Reading Nat) : List Char → Reading Int
  | '-' :: cs => withSign true (magnitude cs)
  | '+' :: cs => withSign false (magnitude cs)
  | cs => withSign false (magnitude cs)

def signedIn (base : Nat) (cs : List Char) : Reading Int := signed (unsignedIn base) cs

def decimal (s : String) : Reading Int := signedIn 10 s.toList

/-! ## Numerals that name their base -/

def base? : List Char → Nat × List Char
  | '0' :: m :: c :: cs =>
    if m = 'b' || m = 'B' then (2, c :: cs)
    else if m = 'o' || m = 'O' then (8, c :: cs)
    else if m = 'x' || m = 'X' then (16, c :: cs)
    else (8, m :: c :: cs)
  | '0' :: cs => (8, cs)
  | cs => (10, cs)

/-- Whether every underscore stands between digits; `afterDigit` says what came before, and a base
mark counts as a digit. -/
def underscoresSeparate (hex : Bool) (afterDigit afterUnderscore : Bool) : List Char → Bool
  | [] => !afterUnderscore
  | c :: cs =>
    if isDigit c || (hex && (('a' ≤ c && c ≤ 'f') || ('A' ≤ c && c ≤ 'F'))) then
      underscoresSeparate hex true false cs
    else if c = '_' then afterDigit && underscoresSeparate hex false true cs
    else !afterUnderscore && underscoresSeparate hex false false cs

/-- Whether the underscores of a numeral with an optional base mark are separators. -/
def underscoresOk : List Char → Bool
  | '0' :: m :: cs =>
    if m = 'x' || m = 'X' then underscoresSeparate true true false cs
    else if m = 'b' || m = 'B' || m = 'o' || m = 'O' then underscoresSeparate false true false cs
    else underscoresSeparate false false false ('0' :: m :: cs)
  | cs => underscoresSeparate false false false cs

/-- An unsigned numeral that may name its base (`0b`, `0o`, `0x`, or `0` for octal) and may have
underscores between its digits. -/
def unsignedAny (cs : List Char) : Reading Nat :=
  if cs.isEmpty then .malformed
  else
    match digits (base? cs).1 0 ((base? cs).2.filter (· != '_')) with
    | .value n => if cs.contains '_' && !underscoresOk cs then .malformed else .value n
    | r => r

def signedAny (cs : List Char) : Reading Int := signed unsignedAny cs

end Numeral

def digitsValue (cs : List Char) : Nat := Numeral.valueFrom 0 cs

def truth? (s : String) : Option Bool :=
  if ["1", "t", "T", "TRUE", "true", "True"].contains s then some true
  else if ["0", "f", "F", "FALSE", "false", "False"].contains s then some false
  else none

end SolidityAst.Text
