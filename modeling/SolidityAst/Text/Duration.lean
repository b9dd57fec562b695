import SolidityAst.Text.Blank
import SolidityAst.Text.Quoted
import SolidityAst.Word

/-!
Durations and their texts.

A duration is a number of nanoseconds that fits 64 bits. It is written with the units it needs, from
hours down to nanoseconds, and read as a sequence of numbers each with its unit.
-/
namespace SolidityAst.Text

structure Duration where
  nanoseconds : Int
  deriving DecidableEq, Repr

namespace Duration

def max : Int := Word.greatest

def min : Int := Word.least

/-- The nearest multiple of `unit`; a half goes away from zero, and what leaves the range stops at its
end. -/
def round (unit : Nat) (d : Duration) : Duration :=
  let magnitude := d.nanoseconds.natAbs
  let rounded := (magnitude + unit / 2) / unit * unit
  if d.nanoseconds < 0 then ⟨Max.max min (-(rounded : Int))⟩ else ⟨Min.min max rounded⟩

/-! ## Writing -/

/-- A number of `10 ^ -places` units, without zeros at the end of its fraction. -/
def fixed (places n : Nat) : String :=
  let fraction := digits places (n % Nat.pow 10 places)
  let shown := (fraction.reverse.dropWhile (· == '0')).reverse
  toString (n / Nat.pow 10 places) ++ if shown.isEmpty then "" else "." ++ String.ofList shown
where
  /-- The last `width` decimal digits. -/
  digits (width n : Nat) : List Char :=
    (List.range width).reverse.map fun i => Char.ofNat ('0'.toNat + n / Nat.pow 10 i % 10)

def magnitudeText (n : Nat) : String :=
  if n = 0 then "0s"
  else if n < 1000 then toString n ++ "ns"
  else if n < 1000000 then fixed 3 n ++ "µs"
  else if n < 1000000000 then fixed 6 n ++ "ms"
  else
    let minutes := n / 60000000000
    let seconds := fixed 9 (n % 60000000000) ++ "s"
    if minutes = 0 then seconds
    else if minutes / 60 = 0 then toString minutes ++ "m" ++ seconds
    else toString (minutes / 60) ++ "h" ++ toString (minutes % 60) ++ "m" ++ seconds

def text (d : Duration) : String :=
  (if d.nanoseconds < 0 then "-" else "") ++ magnitudeText d.nanoseconds.natAbs

/-! ## Reading -/

def unit? (name : String) : Option Nat :=
  if name = "ns" then some 1
  else if name = "us" || name = "µs" || name = "μs" then some 1000
  else if name = "ms" then some 1000000
  else if name = "s" then some 1000000000
  else if name = "m" then some 60000000000
  else if name = "h" then some 3600000000000
  else none

/-- A text in quotes, with the bytes of all characters but the visible ASCII ones in hexadecimal. -/
def quote (s : String) : String :=
  let shown (c : Char) : List Char :=
    if c.toNat < 0x20 || 0x80 ≤ c.toNat then
      (Utf8.encodeChar c).flatMap fun b => '\\' :: 'x' :: hexByte b
    else if c = '"' || c = '\\' then ['\\', c]
    else [c]
  String.ofList ('"' :: s.toList.flatMap shown ++ ['"'])

inductive Problem where
  | invalid
  | missingUnit
  | unknownUnit (name : String)
  deriving DecidableEq, Repr

def Problem.message (whole : String) : Problem → String
  | invalid => "time: invalid duration " ++ quote whole
  | missingUnit => "time: missing unit in duration " ++ quote whole
  | unknownUnit name => "time: unknown unit " ++ quote name ++ " in duration " ++ quote whole

def spanDigits (cs : List Char) : List Char × List Char :=
  (cs.takeWhile isDigit, cs.dropWhile isDigit)

/-- The value of digits after the value `n` of those before them. -/
def valueOf (n : Nat) (ds : List Char) : Nat :=
  ds.foldl (fun n c => n * 10 + (c.toNat - '0'.toNat)) n

/-- The value of the digits after the point and the power of ten below it; digits that no longer fit
are dropped. -/
def fractionOf (n scale : Nat) : List Char → Nat × Nat
  | [] => (n, scale)
  | c :: cs =>
    let m := n * 10 + (c.toNat - '0'.toNat)
    if (Word.half - 1) / 10 < n || Word.half < m then (n, scale) else fractionOf m (scale * 10) cs

/-- The nanoseconds of a fraction of a unit, in double precision. -/
def fractionNanoseconds (f scale unit : Nat) : Nat :=
  (Float.ofNat f * (Float.ofNat unit / Float.ofNat scale)).toUInt64.toNat

/-- A number with its unit at the start of a text: its nanoseconds and what follows. -/
def component (cs : List Char) : Except Problem (Nat × List Char) :=
  let (whole, rest) := spanDigits cs
  let (fraction, rest) :=
    match rest with
    | '.' :: after => spanDigits after
    | _ => ([], rest)
  let n := valueOf 0 whole
  let name := rest.takeWhile fun c => !(c == '.' || isDigit c)
  let rest := rest.dropWhile fun c => !(c == '.' || isDigit c)
  if whole.isEmpty && fraction.isEmpty || Word.half < n then .error .invalid
  else if name.isEmpty then .error .missingUnit
  else
    match unit? (String.ofList name) with
    | none => .error (.unknownUnit (String.ofList name))
    | some unit =>
      let (f, scale) := fractionOf 0 1 fraction
      let total := n * unit + if f = 0 then 0 else fractionNanoseconds f scale unit
      if Word.half / unit < n || Word.half < total then .error .invalid else .ok (total, rest)

/-- The sum of the components of a text onto `sum`. The sum is taken modulo `2 ^ 64`. -/
def components : (fuel : Nat) → (sum : Nat) → List Char → Except Problem Nat
  | _, sum, [] => .ok sum
  | 0, _, _ => .error .invalid
  | fuel + 1, sum, cs =>
    match component cs with
    | .error p => .error p
    | .ok (n, rest) =>
      let sum := (sum + n) % Word.size
      if Word.half < sum then .error .invalid else components fuel sum rest

def splitSign : List Char → Bool × List Char
  | '-' :: cs => (true, cs)
  | '+' :: cs => (false, cs)
  | cs => (false, cs)

def parse (s : String) : Except String Duration :=
  let (negative, cs) := splitSign s.toList
  if cs = ['0'] then .ok ⟨0⟩
  else if cs.isEmpty then .error (Problem.invalid.message s)
  else
    match components cs.length 0 cs with
    | .error p => .error (p.message s)
    | .ok n =>
      if negative then .ok ⟨-(n : Int)⟩
      else if Word.half ≤ n then .error (Problem.invalid.message s)
      else .ok ⟨n⟩

end Duration

end SolidityAst.Text
