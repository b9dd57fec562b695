import SolidityAst.Text.Blank

/-!
Moments in time and their RFC 3339 texts.

A moment is a number of nanoseconds since 1970 began in UTC. Days are counted in the proleptic
Gregorian calendar.
-/
namespace SolidityAst.Ledger

open Text

structure Instant where
  /-- Nanoseconds since 1970 began. -/
  nanoseconds : Int
  deriving DecidableEq, Repr

namespace Instant

def daysOfDate (year month day : Int) : Int :=
  let y := if month ≤ 2 then year - 1 else year
  let era := Int.fdiv y 400
  let yearOfEra := y - era * 400
  let shifted := Int.emod (month + 9) 12
  let dayOfYear := (153 * shifted + 2) / 5 + day - 1
  let dayOfEra := yearOfEra * 365 + yearOfEra / 4 - yearOfEra / 100 + dayOfYear
  era * 146097 + dayOfEra - 719468

def dateOfDays (days : Int) : Int × Int × Int :=
  let z := days + 719468
  let era := Int.fdiv z 146097
  let dayOfEra := z - era * 146097
  let yearOfEra := (dayOfEra - dayOfEra / 1460 + dayOfEra / 36524 - dayOfEra / 146096) / 365
  let dayOfYear := dayOfEra - (365 * yearOfEra + yearOfEra / 4 - yearOfEra / 100)
  let shifted := (5 * dayOfYear + 2) / 153
  let day := dayOfYear - (153 * shifted + 2) / 5 + 1
  let month := if shifted < 10 then shifted + 3 else shifted - 9
  (yearOfEra + era * 400 + if month ≤ 2 then 1 else 0, month, day)

def ofDateTime (year month day hour minute second nanosecond : Int) : Instant :=
  ⟨(daysOfDate year month day * 86400 + hour * 3600 + minute * 60 + second) * 1000000000 + nanosecond⟩

/-- The moment that stands for no moment: the beginning of the year one. -/
def zero : Instant := ofDateTime 1 1 1 0 0 0 0

def padded (width : Nat) (n : Int) : String :=
  let digits := (toString n.toNat).toList
  String.ofList (List.replicate (width - digits.length) '0' ++ digits)

/-- A fraction of a second without zeros at its end, after a point; nothing for zero. -/
def fractionText (nanosecond : Int) : String :=
  if nanosecond = 0 then ""
  else "." ++ String.ofList (dropEndWhile (· == '0') (padded 9 nanosecond).toList)

/-- The RFC 3339 text of a moment in UTC. -/
def text (t : Instant) : String :=
  let seconds := Int.fdiv t.nanoseconds 1000000000
  let nanosecond := t.nanoseconds - seconds * 1000000000
  let days := Int.fdiv seconds 86400
  let s := seconds - days * 86400
  let (year, month, day) := dateOfDays days
  padded 4 year ++ "-" ++ padded 2 month ++ "-" ++ padded 2 day ++ "T" ++ padded 2 (s / 3600) ++ ":"
    ++ padded 2 (s / 60 % 60) ++ ":" ++ padded 2 (s % 60) ++ fractionText nanosecond ++ "Z"

/-! ## Reading -/

/-- A number of exactly `width` digits. -/
def digits? : (width : Nat) → (n : Int) → List Char → Option (Int × List Char)
  | 0, n, cs => some (n, cs)
  | width + 1, n, c :: cs =>
    if isDigit c then digits? width (n * 10 + (c.toNat - '0'.toNat : Nat)) cs else none
  | _ + 1, _, [] => none

def expect? (e : Char) : List Char → Option (List Char)
  | c :: cs => if c = e then some cs else none
  | [] => none

def fraction? : List Char → Option (Int × List Char)
  | '.' :: cs =>
    let ds := cs.takeWhile isDigit
    if ds.isEmpty then none
    else
      let first := ds.take 9 ++ List.replicate (9 - ds.length) '0'
      (digits? 9 0 first).map fun (n, _) => (n, cs.dropWhile isDigit)
  | cs => some (0, cs)

def offset? : List Char → Option (Int × List Char)
  | 'Z' :: cs => some (0, cs)
  | sign :: cs =>
    if sign = '+' || sign = '-' then do
      let (h, cs) ← digits? 2 0 cs
      let cs ← expect? ':' cs
      let (m, cs) ← digits? 2 0 cs
      return ((if sign = '-' then -1 else 1) * (h * 3600 + m * 60), cs)
    else none
  | [] => none

def parse? (s : String) : Option Instant := do
  let (year, cs) ← digits? 4 0 s.toList
  let cs ← expect? '-' cs
  let (month, cs) ← digits? 2 0 cs
  let cs ← expect? '-' cs
  let (day, cs) ← digits? 2 0 cs
  let cs ← expect? 'T' cs
  let (hour, cs) ← digits? 2 0 cs
  let cs ← expect? ':' cs
  let (minute, cs) ← digits? 2 0 cs
  let cs ← expect? ':' cs
  let (second, cs) ← digits? 2 0 cs
  let (nanosecond, cs) ← fraction? cs
  let (ahead, cs) ← offset? cs
  let t := ofDateTime year month day hour minute second nanosecond
  if cs.isEmpty then return ⟨t.nanoseconds - ahead * 1000000000⟩ else none

end Instant

end SolidityAst.Ledger
