import SolidityAst.Text.Base64
import SolidityAst.Text.Double
import SolidityAst.Text.Fields
import SolidityAst.Yaml.Node
import SolidityAst.Yaml.Timestamp

/-!
What scalars mean.

A plain scalar without a tag is what its text looks like: nothing, a truth value, a number, a point in
time, or else a text. A tag has to agree with that, except that every text may be tagged as a text and
a whole number as a fractional one.
-/
namespace SolidityAst.Yaml

open Text

inductive Meaning where
  | null
  | truth (b : Bool)
  | integer (n : Int)
  | real (x : Float)
  | time
  | text (s : String)

def Meaning.tag : Meaning → String
  | null => "!!null"
  | truth _ => "!!bool"
  | integer _ => "!!int"
  | real _ => "!!float"
  | time => "!!timestamp"
  | text _ => "!!str"

def word? (s : String) : Option Meaning :=
  if ["true", "True", "TRUE"].contains s then some (.truth true)
  else if ["false", "False", "FALSE"].contains s then some (.truth false)
  else if ["", "~", "null", "Null", "NULL"].contains s then some .null
  else if [".nan", ".NaN", ".NAN"].contains s then some (.real (0 / 0))
  else if [".inf", ".Inf", ".INF", "+.inf", "+.Inf", "+.INF"].contains s then some (.real (1 / 0))
  else if ["-.inf", "-.Inf", "-.INF"].contains s then some (.real (-1 / 0))
  else none

def looksReal (cs : List Char) : Bool :=
  let body :=
    match cs with
    | '-' :: cs => cs
    | '+' :: cs => cs
    | cs => cs
  let exponent (cs : List Char) : Bool :=
    match cs with
    | [] => true
    | e :: cs =>
      let ds :=
        match cs with
        | '-' :: ds => ds
        | '+' :: ds => ds
        | ds => ds
      (e == 'e' || e == 'E') && !ds.isEmpty && ds.all isDigit
  let whole := body.takeWhile isDigit
  match body.drop whole.length with
  | '.' :: cs =>
    (!whole.isEmpty || cs.head?.any isDigit) && exponent (cs.dropWhile isDigit)
  | cs => !whole.isEmpty && exponent cs

def whole? (cs : List Char) : Option Int :=
  match Numeral.signedAny cs, Numeral.unsignedAny cs with
  | .value n, _ => some n
  | _, .value n => some n
  | _, _ => none

def wholeIn? (base : Nat) (cs : List Char) : Option Int :=
  match Numeral.signedIn base cs, Numeral.unsignedIn base cs with
  | .value n, _ => some n
  | _, .value n => some n
  | _, _ => none

def innerSigned? : List Char → Option Int
  | '0' :: 'b' :: cs => wholeIn? 2 cs
  | '-' :: '0' :: 'b' :: cs => (Numeral.signedIn 2 ('-' :: cs)).value?
  | '0' :: 'o' :: cs => wholeIn? 8 cs
  | '-' :: '0' :: 'o' :: cs => (Numeral.signedIn 8 ('-' :: cs)).value?
  | _ => none

/-- The number that a text is; underscores in it do not count. -/
def number? (cs : List Char) : Option Meaning :=
  let plain := cs.filter (· != '_')
  match whole? plain with
  | some n => some (.integer n)
  | none =>
    match if looksReal plain then Double.ofDecimal? plain else none with
    | some x => some (.real x)
    | none => (innerSigned? plain).map .integer

/-- What a text looks like. A point in time is recognised only if `timed` says so. -/
def look (timed : Bool) (s : String) : Meaning :=
  match s.toList with
  | [] => .null
  | c :: cs =>
    if c == '+' || c == '-' || isDigit c then
      match word? s with
      | some m => m
      | none => if timed && Timestamp.matches? (c :: cs) then .time else (number? (c :: cs)).getD (.text s)
    else if c == '.' then
      match word? s, Double.ofDecimal? (c :: cs) with
      | some m, _ => m
      | none, some x => .real x
      | none, none => .text s
    else (word? s).getD (.text s)

/-- What a text means under a tag; nothing when they do not agree. The result names the tag. -/
def resolve (tag s : String) : Option (String × Meaning) :=
  if tag = "!!str" || tag = "!!binary" || (tag = "!!merge" && s = "<<") then some (tag, .text s)
  else
    let m := look (tag = "" || tag = "!!timestamp") s
    if tag = "" || tag = m.tag then some (m.tag, m)
    else
      match m with
      | .integer n =>
        if tag = "!!float" && n < Word.half then some ("!!float", .real (Float.ofInt n)) else none
      | _ => none

/-- The tag of a value: the one that is written, or else the one that follows from its form. -/
def Node.tag : Node → String
  | scalar _ (some tag) _ _ => tag
  | scalar _ none .plain text => if text = "<<" then "!!merge" else (look true text).tag
  | scalar _ none _ _ => "!!str"
  | sequence _ tag _ => tag.getD "!!seq"
  | mapping _ tag _ => tag.getD "!!map"
  | reference .. => ""

def Node.isMerge : Node → Bool
  | n@(scalar _ _ _ text) => text = "<<" && n.tag = "!!merge"
  | _ => false

/-- What a scalar means; nothing when its tag does not agree with its text or its text is not what the
tag promises. -/
def meaning (tag text : String) : Option Meaning :=
  if tag = "!!binary" then (Base64.decode text).map fun bs => .text (Utf8.text bs)
  else (resolve tag text).map (·.2)

end SolidityAst.Yaml
