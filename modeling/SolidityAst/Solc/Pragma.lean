import SolidityAst.Solc.Version
import SolidityAst.Text.Matches
import SolidityAst.Text.Utf8

/-!
The compiler version that a source asks for.

Every `pragma solidity …;` directive gives a constraint. A constraint with an upper bound gives the
last version the bound admits, where that is known; any other gives the versions it mentions. The
source asks for the highest version that its constraints give.
-/
namespace SolidityAst.Solc.Pragma

open Text

/-- A version as it is written in a constraint, with or without a patch number. -/
structure Literal where
  major : List Char
  minor : List Char
  patch : Option (List Char)
  deriving DecidableEq, Repr

/-- The version, a missing patch number read as zero. -/
def Literal.version (l : Literal) : String :=
  String.ofList (l.major ++ '.' :: l.minor ++ '.' :: l.patch.getD ['0'])

/-- `x.y` or `x.y.z`, each a run of digits. -/
def literal : Pattern Literal := fun cs =>
  let major := cs.takeWhile isDigit
  match major, cs.dropWhile isDigit with
  | _ :: _, '.' :: cs =>
    let minor := cs.takeWhile isDigit
    match minor, cs.dropWhile isDigit with
    | [], _ => none
    | _ :: _, '.' :: cs =>
      let patch := cs.takeWhile isDigit
      if patch.isEmpty then some (⟨major, minor, none⟩, major.length + 1 + minor.length)
      else
        some (⟨major, minor, some patch⟩, major.length + 1 + minor.length + 1 + patch.length)
    | _ :: _, _ => some (⟨major, minor, none⟩, major.length + 1 + minor.length)
  | _, _ => none

/-- An upper bound of a constraint: `<= x.y.z` or `< x.y.z`. -/
structure UpperBound where
  inclusive : Bool
  bound : Literal
  deriving DecidableEq, Repr

def literalAfterBlanks (cs : List Char) : Option (Literal × Nat) :=
  (literal (cs.dropWhile isAsciiBlank)).map fun (l, n) =>
    (l, (cs.takeWhile isAsciiBlank).length + n)

/-- `<=` or `<`, blanks, and a version. -/
def upperBound : Pattern UpperBound
  | '<' :: '=' :: cs => (literalAfterBlanks cs).map fun (l, n) => (⟨true, l⟩, n + 2)
  | '<' :: cs => (literalAfterBlanks cs).map fun (l, n) => (⟨false, l⟩, n + 1)
  | _ => none

/-- The last release of a `0.x` series. -/
def lastRelease? : Nat → Option String
  | 4 => some "0.4.26"
  | 5 => some "0.5.17"
  | 6 => some "0.6.12"
  | 7 => some "0.7.6"
  | _ => none

/-- The last version that a bound admits, where it is known: the bound itself when it is inclusive,
and the last release of the series before `0.x.0` below that version. -/
def UpperBound.version? (u : UpperBound) : Option String :=
  if u.inclusive then some u.bound.version
  else if digitsValue u.bound.major = 0 && (u.bound.patch.isNone || u.bound.patch = some ['0']) then
    match digitsValue u.bound.minor with
    | 0 => none
    | n + 1 => lastRelease? n
  else none

def pick? (constraint : List Char) : Option String :=
  (Pattern.firstIn? upperBound constraint).bind UpperBound.version?

/-- The versions that a constraint mentions outside its upper bounds. -/
def mentioned (constraint : List Char) : List String :=
  (Pattern.matchesIn literal (Pattern.eraseFrom upperBound constraint)).map Literal.version

def candidates (constraint : List Char) : List String :=
  match pick? constraint with
  | some v => [v]
  | none => mentioned constraint

/-- `pragma solidity`, blanks, a constraint and a semicolon. The constraint has at least one
character, which may be one of the blanks. -/
def directive : Pattern (List Char) := fun cs =>
  match afterStart? "pragma".toList cs with
  | none => none
  | some afterPragma =>
    let gap := afterPragma.takeWhile isAsciiBlank
    match gap, afterStart? "solidity".toList (afterPragma.dropWhile isAsciiBlank) with
    | _ :: _, some afterName =>
      let blanks := afterName.takeWhile isAsciiBlank
      let body := (afterName.dropWhile isAsciiBlank).takeWhile (· != ';')
      match (afterName.dropWhile isAsciiBlank).dropWhile (· != ';') with
      | [] => none
      | _ :: _ =>
        if blanks.isEmpty || (body.isEmpty && blanks.length < 2) then none
        else some (body, 6 + gap.length + 8 + blanks.length + body.length + 1)
    | _, _ => none

def constraints (source : Bytes) : List (List Char) :=
  Pattern.matchesIn directive (Utf8.byteChars source)

/-- The first of the highest versions. -/
def highest? : List String → Option String
  | [] => none
  | v :: vs => some (vs.foldl (fun best w => if Version.later w best then w else best) v)

def version? (source : Bytes) : Option String :=
  highest? ((constraints source).flatMap candidates)

end SolidityAst.Solc.Pragma
