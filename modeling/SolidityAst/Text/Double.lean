import SolidityAst.Text.Numeral

/-!
Numbers in double precision.
-/
namespace SolidityAst.Text.Double

/-- The integer part of `x`, or the least 64-bit integer when it does not fit 64 bits. -/
def wholePart (x : Float) : Int :=
  if -9223372036854775808 ≤ x && x < 9223372036854775808 then x.toInt64.toInt else Word.least

/-- The whole number next to `x`, which is not negative; of two equally near ones the even one. -/
def nearest (x : Float) : Nat :=
  let below := x.floor
  let n := below.toUInt64.toNat
  if x - below > 0.5 || (x - below == 0.5 && n % 2 == 1) then n + 1 else n

/-- An exponent, which stops growing once it exceeds every exponent that matters. -/
def exponentValue (ds : List Char) : Nat :=
  ds.foldl (fun n c => if n < 10000 then n * 10 + (c.toNat - '0'.toNat) else n) 0

/-- The exponent at the end of a decimal number; zero when there is none. -/
def exponent? : List Char → Option Int
  | [] => some 0
  | e :: cs =>
    if e = 'e' || e = 'E' then
      let (negative, ds) : Bool × List Char :=
        match cs with
        | '-' :: ds => (true, ds)
        | '+' :: ds => (false, ds)
        | ds => (false, ds)
      match ds with
      | [] => none
      | d :: _ =>
        if isDigit d && ds.all (fun c => isDigit c || c == '_') then
          let n : Int := exponentValue (ds.filter isDigit)
          some (if negative then -n else n)
        else none
    else none

/-- The double next to `m` times ten to the power `e`, if it is finite. -/
def scaled? (m : Nat) (e : Int) : Option Float :=
  let x := Float.ofScientific m (decide (e < 0)) e.natAbs
  if x.isInf then none else some x

def magnitude? (cs : List Char) : Option Float :=
  let isPart (c : Char) : Bool := isDigit c || c == '_'
  let whole := cs.takeWhile isPart
  let (fraction, rest) : List Char × List Char :=
    match cs.dropWhile isPart with
    | '.' :: after => (after.takeWhile isPart, after.dropWhile isPart)
    | rest => ([], rest)
  let ds := (whole ++ fraction).filter isDigit
  match exponent? rest with
  | none => none
  | some e =>
    if ds.isEmpty then none
    else scaled? (digitsValue ds) (e - (fraction.filter isDigit).length)

/-- Reads a decimal number: digits with an optional point, an optional sign before and an optional
exponent after them. Underscores may stand between digits. There is none when it is too large. -/
def ofDecimal? (cs : List Char) : Option Float :=
  let (negative, body) : Bool × List Char :=
    match cs with
    | '-' :: body => (true, body)
    | '+' :: body => (false, body)
    | body => (false, body)
  if body.contains '_' && !Numeral.underscoresOk body then none
  else (magnitude? body).map fun x => if negative then -x else x

end SolidityAst.Text.Double
