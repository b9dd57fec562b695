import SolidityAst.Text.Blank

/-!
Texts that are points in time.

A date has a year of four digits and a month and day of one or two. A time of day may follow: after a
`T` or `t` with a time zone, or after spaces without one.
-/
namespace SolidityAst.Yaml.Timestamp

open Text

def number? : List Char → Option (Nat × List Char)
  | a :: b :: cs =>
    if !isDigit a then none
    else if isDigit b then some ((a.toNat - '0'.toNat) * 10 + (b.toNat - '0'.toNat), cs)
    else some (a.toNat - '0'.toNat, b :: cs)
  | [a] => if isDigit a then some (a.toNat - '0'.toNat, []) else none
  | [] => none

def within? (low high : Nat) (cs : List Char) : Option (Nat × List Char) :=
  (number? cs).filter fun (n, _) => low ≤ n && n ≤ high

def after? (c : Char) : List Char → Option (List Char)
  | d :: cs => if c == d then some cs else none
  | [] => none

def daysIn (year month : Nat) : Nat :=
  if month == 2 then
    if year % 4 == 0 && (year % 100 != 0 || year % 400 == 0) then 29 else 28
  else if month == 4 || month == 6 || month == 9 || month == 11 then 30
  else 31

def date? (cs : List Char) : Option (List Char) := do
  let year := cs.takeWhile isDigit
  if year.length ≠ 4 then none
  else do
    let y := year.foldl (fun n c => n * 10 + (c.toNat - '0'.toNat)) 0
    let (month, cs) ← within? 1 12 (← after? '-' (cs.drop 4))
    let (_, cs) ← within? 1 (daysIn y month) (← after? '-' cs)
    return cs

/-- A time of day with a fraction if one follows, and what follows it. -/
def time? (cs : List Char) : Option (List Char) := do
  let (_, cs) ← within? 0 23 cs
  let (_, cs) ← within? 0 59 (← after? ':' cs)
  let (_, cs) ← within? 0 59 (← after? ':' cs)
  match cs with
  | p :: d :: rest =>
    if (p == '.' || p == ',') && isDigit d then return rest.dropWhile isDigit else return cs
  | _ => return cs

/-- Whether the characters are a time zone: `Z`, or hours and minutes before or after. -/
def isZone : List Char → Bool
  | ['Z'] => true
  | [sign, a, b, ':', c, d] =>
    (sign == '+' || sign == '-') && [a, b, c, d].all isDigit
      && ((a.toNat - '0'.toNat) * 10 + (b.toNat - '0'.toNat) ≤ 24)
      && ((c.toNat - '0'.toNat) * 10 + (d.toNat - '0'.toNat) ≤ 60)
  | _ => false

def matches? (cs : List Char) : Bool :=
  match date? cs with
  | none => false
  | some [] => true
  | some (c :: rest) =>
    if c == 'T' || c == 't' then (time? rest).any isZone
    else c == ' ' && (time? (rest.dropWhile (· == ' '))).any List.isEmpty

end SolidityAst.Yaml.Timestamp
