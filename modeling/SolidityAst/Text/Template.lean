import SolidityAst.Text.Blank
import SolidityAst.Text.Quoted
import SolidityAst.Word

/-!
Texts with places for values.

A place starts with a percent sign. Flags, a width, a precision and the number of a value may follow, and
a letter that says how the value is written ends it. Values are taken in order unless a place numbers
them. A place without a fitting value, and values without a place, show in the result.
-/
namespace SolidityAst.Text

namespace Template

inductive Value where
  | text (s : String)
  | integer (n : Int)
  deriving DecidableEq, Repr

def Value.kind : Value → String
  | text _ => "string"
  | integer _ => "int"

structure Layout where
  sharp : Bool
  zero : Bool
  plus : Bool
  minus : Bool
  space : Bool
  /-- Whether a value that is written plainly is written with quotes. -/
  literal : Bool
  width : Option Nat
  precision : Option Nat
  deriving DecidableEq, Repr

namespace Layout

def plain : Layout := ⟨false, false, false, false, false, false, none, none⟩

/-- Whether empty room to the left is filled with zeros. -/
def zeros (l : Layout) : Bool := l.zero && !l.minus

def fill (l : Layout) (zeros : Bool) (cs : List Char) : List Char :=
  let room := l.width.getD 0 - cs.length
  if l.minus then cs ++ List.replicate room ' '
  else List.replicate room (if zeros then '0' else ' ') ++ cs

def cut (l : Layout) (cs : List Char) : List Char :=
  match l.precision with
  | some p => cs.take p
  | none => cs

end Layout

/-! ## Integers -/

inductive Radix where
  | binary
  | octal
  /-- Octal with a mark of two characters. -/
  | markedOctal
  | decimal
  | hexadecimal
  | upperHexadecimal
  deriving DecidableEq, Repr

def Radix.base : Radix → Nat
  | binary => 2
  | octal => 8
  | markedOctal => 8
  | decimal => 10
  | hexadecimal => 16
  | upperHexadecimal => 16

def Radix.digits (r : Radix) (n : Nat) : List Char :=
  let cs := Nat.toDigits r.base n
  if r = .upperHexadecimal then cs.map Char.toUpper else cs

/-- The digits with the mark of the base before them, if it is asked for. -/
def Radix.marked (r : Radix) (sharp : Bool) (digits : List Char) : List Char :=
  let withZero := if sharp && digits.head? ≠ some '0' then '0' :: digits else digits
  match r with
  | binary => if sharp then '0' :: 'b' :: digits else digits
  | octal => withZero
  | markedOctal => '0' :: 'o' :: withZero
  | decimal => digits
  | hexadecimal => if sharp then '0' :: 'x' :: digits else digits
  | upperHexadecimal => if sharp then '0' :: 'X' :: digits else digits

def sign (l : Layout) (n : Int) : List Char :=
  if n < 0 then ['-'] else if l.plus then ['+'] else if l.space then [' '] else []

/-- The least number of digits; filling with zeros leaves room for a sign. -/
def leastDigits (l : Layout) (n : Int) : Nat :=
  match l.precision with
  | some p => p
  | none => if l.zeros then l.width.getD 0 - (sign l n).length else 0

/-- An integer as a number. Zero with no digits asked for is only room. -/
def integer (l : Layout) (r : Radix) (n : Int) : List Char :=
  if l.precision = some 0 && n = 0 then List.replicate (l.width.getD 0) ' '
  else
    let digits := r.digits n.natAbs
    let digits := List.replicate (leastDigits l n - digits.length) '0' ++ digits
    l.fill false (sign l n ++ r.marked l.sharp digits)

def character (n : Int) : Char :=
  if 0 ≤ n && n.toNat.isValidChar then Char.ofNat n.toNat else '\ufffd'

/-- A character between quotes; with `ascii` every other character is escaped. -/
def quotedCharacter (ascii : Bool) (quote c : Char) : List Char :=
  if c = quote || c = '\\' then ['\\', c]
  else if (c.toNat < 0x80 || !ascii) && isPrintable c then [c]
  else Quoted.escape c

def codePoint (l : Layout) (n : Int) : List Char :=
  let code := if n < 0 then Word.size - n.natAbs else n.toNat
  let digits := Radix.upperHexadecimal.digits code
  let shown :=
    if l.sharp && code.isValidChar && isPrintable (Char.ofNat code) then
      [' ', '\'', Char.ofNat code, '\'']
    else []
  l.fill false <| 'U' :: '+'
    :: List.replicate (max 4 (l.precision.getD 0) - digits.length) '0' ++ digits ++ shown

/-! ## Texts -/

def fitsBackQuotes (s : String) : Bool :=
  s.toList.all fun c => (0x20 ≤ c.toNat || c = '\t') && c.toNat ≠ 0x7F && c.toNat ≠ 0x60 && c ≠ '\ufeff'

def quotedText (l : Layout) (s : String) : List Char :=
  let cs := l.cut s.toList
  let written :=
    if l.sharp && fitsBackQuotes (String.ofList cs) then "`".toList ++ cs ++ "`".toList
    else '"' :: cs.flatMap (quotedCharacter l.plus '"') ++ ['"']
  l.fill l.zeros written

/-- The bytes of a text in hexadecimal; a precision cuts them, a space parts them. -/
def hexText (l : Layout) (upper : Bool) (s : String) : List Char :=
  let bytes := Utf8.encode s
  let bytes := match l.precision with
    | some p => bytes.take p
    | none => bytes
  let mark : List Char := if !l.sharp then [] else if upper then ['0', 'X'] else ['0', 'x']
  let one (b : UInt8) : List Char :=
    if upper then (hexByte b).map Char.toUpper else hexByte b
  let written :=
    match bytes with
    | [] => []
    | b :: bs =>
      mark ++ one b ++ bs.flatMap fun b => if l.space then ' ' :: mark ++ one b else one b
  l.fill l.zeros written

/-! ## Places -/

def Value.written? (l : Layout) (verb : Char) : Value → Option (List Char)
  | integer n =>
    match verb with
    | 'v' => some (Template.integer l .decimal n)
    | 'd' => some (Template.integer l .decimal n)
    | 'b' => some (Template.integer l .binary n)
    | 'o' => some (Template.integer l .octal n)
    | 'O' => some (Template.integer l .markedOctal n)
    | 'x' => some (Template.integer l .hexadecimal n)
    | 'X' => some (Template.integer l .upperHexadecimal n)
    | 'c' => some (l.fill l.zeros [character n])
    | 'q' => some (l.fill l.zeros ('\'' :: quotedCharacter l.plus '\'' (character n) ++ ['\'']))
    | 'U' => some (codePoint l n)
    | _ => none
  | text s =>
    match verb with
    | 'v' => some (if l.literal then quotedText l s else l.fill l.zeros (l.cut s.toList))
    | 's' => some (l.fill l.zeros (l.cut s.toList))
    | 'x' => some (hexText l false s)
    | 'X' => some (hexText l true s)
    | 'q' => some (quotedText l s)
    | _ => none

def Value.described (l : Layout) (v : Value) : List Char :=
  v.kind.toList ++ '=' :: (v.written? l 'v').getD []

def complaint (verb : Char) (what : List Char) : List Char :=
  '%' :: '!' :: verb :: '(' :: what ++ [')']

def Value.shown (l : Layout) (verb : Char) (v : Value) : List Char :=
  if verb = 'T' then l.fill l.zeros (l.cut v.kind.toList)
  else
    match v.written? l verb with
    | some cs => cs
    | none => complaint verb (v.described l)

def bound : Nat := 1000000

/-- Reads the digits of a number onto `n`; none if it grows beyond the bound. -/
def number? (n : Nat) : List Char → Option (Nat × List Char)
  | [] => some (n, [])
  | c :: cs =>
    if isDigit c then
      if bound < n then none else number? (n * 10 + (c.toNat - '0'.toNat)) cs
    else some (n, c :: cs)

/-- A number at the start of a text. One that grows beyond the bound uses up the text. -/
def takeNumber (cs : List Char) : Option Nat × List Char :=
  match cs.head?.map isDigit, number? 0 cs with
  | some true, some (n, rest) => (some n, rest)
  | some true, none => (none, [])
  | _, _ => (none, cs)

structure Reading where
  rest : List Char
  /-- The number of the next value. -/
  next : Nat
  /-- Whether the place names its values well. -/
  good : Bool
  /-- Whether the place numbers a value. -/
  numbered : Bool
  /-- Whether the number of a value was just read. -/
  afterNumber : Bool
  layout : Layout
  /-- What was found wrong on the way. -/
  remarks : List Char

namespace Reading

/-- What stands between brackets, and how many characters the brackets and it take. -/
def bracketed? (cs : List Char) : Option (List Char × List Char) :=
  let inner := cs.takeWhile (· ≠ ']')
  match cs.drop inner.length with
  | [] => none
  | _ :: rest => if inner.isEmpty && rest.isEmpty then none else some (inner, rest)

def takeIndex (values : Nat) (r : Reading) : Reading :=
  match r.rest with
  | '[' :: cs =>
    match bracketed? cs with
    | none => { r with rest := cs, numbered := true, good := false, afterNumber := false }
    | some (inner, rest) =>
      match takeNumber inner with
      | (some n, []) =>
        if 1 ≤ n && n ≤ values then
          { r with rest := rest, numbered := true, next := n - 1, afterNumber := true }
        else { r with rest := rest, numbered := true, good := false, afterNumber := true }
      | _ => { r with rest := rest, numbered := true, good := false, afterNumber := false }
  | _ => { r with afterNumber := false }

def takeInteger (values : List Value) (r : Reading) : Option Int × Reading :=
  match values[r.next]? with
  | none => (none, r)
  | some (.integer n) =>
    (if n.natAbs ≤ bound then some n else none, { r with next := r.next + 1 })
  | some (.text _) => (none, { r with next := r.next + 1 })

def takeWidth (values : List Value) (r : Reading) : Reading :=
  match r.rest with
  | '*' :: cs =>
    match takeInteger values { r with rest := cs, afterNumber := false } with
    | (none, r) => { r with remarks := r.remarks ++ "%!(BADWIDTH)".toList }
    | (some n, r) =>
      { r with layout := { r.layout with
          width := some n.natAbs, minus := r.layout.minus || decide (n < 0) } }
  | cs =>
    let (n, rest) := takeNumber cs
    { r with
      rest := rest
      layout := { r.layout with width := n }
      good := r.good && !(r.afterNumber && n.isSome) }

def takePrecision (values : List Value) (r : Reading) : Reading :=
  match r.rest with
  | '.' :: cs =>
    let r := takeIndex values.length { r with rest := cs, good := r.good && !r.afterNumber }
    match r.rest with
    | '*' :: cs =>
      let (n, r) := takeInteger values { r with rest := cs, afterNumber := false }
      match n.filter (0 ≤ ·) with
      | none => { r with remarks := r.remarks ++ "%!(BADPREC)".toList }
      | some n => { r with layout := { r.layout with precision := some n.toNat } }
    | cs =>
      let (n, rest) := takeNumber cs
      { r with rest := rest, layout := { r.layout with precision := some (n.getD 0) } }
  | _ => r

def takeFlags (r : Reading) : List Char → Reading
  | '#' :: cs => takeFlags { r with layout := { r.layout with sharp := true } } cs
  | '0' :: cs => takeFlags { r with layout := { r.layout with zero := true } } cs
  | '+' :: cs => takeFlags { r with layout := { r.layout with plus := true } } cs
  | '-' :: cs => takeFlags { r with layout := { r.layout with minus := true } } cs
  | ' ' :: cs => takeFlags { r with layout := { r.layout with space := true } } cs
  | cs => { r with rest := cs }

/-- Reads a place up to its letter; `cs` is what follows the percent sign. -/
def ofPlace (values : List Value) (next : Nat) (cs : List Char) : Reading :=
  let r := takeFlags ⟨cs, next, true, false, false, .plain, []⟩ cs
  let r := r.takeIndex values.length
  let r := r.takeWidth values
  let r := r.takePrecision values
  if r.afterNumber then r else r.takeIndex values.length

/-- The layout for a letter: a value that is written plainly takes two of the flags in another way. -/
def layoutFor (r : Reading) (verb : Char) : Layout :=
  if verb = 'v' || verb = 'w' then
    { r.layout with literal := r.layout.sharp, sharp := false, plus := false }
  else r.layout

def finish (values : List Value) (r : Reading) : List Char × Reading :=
  match r.rest with
  | [] => (r.remarks ++ "%!(NOVERB)".toList, r)
  | verb :: rest =>
    let r := { r with rest := rest }
    if verb = '%' then (r.remarks ++ ['%'], r)
    else if !r.good then (r.remarks ++ complaint verb "BADINDEX".toList, r)
    else
      match values[r.next]? with
      | none => (r.remarks ++ complaint verb "MISSING".toList, r)
      | some v => (r.remarks ++ v.shown (r.layoutFor verb) verb, { r with next := r.next + 1 })

end Reading

def surplus : List Value → List Char
  | [] => []
  | vs =>
    "%!(EXTRA ".toList ++ ", ".toList.intercalate (vs.map (Value.described .plain)) ++ [')']

/-- Fills the places of a text; each place is longer than nothing, so the length of the text bounds
the number of rounds. -/
def fillFrom (values : List Value) : (rounds : Nat) → (next : Nat) → (numbered : Bool) → List Char →
    List Char
  | 0, _, _, _ => []
  | _ + 1, next, numbered, [] => if numbered then [] else surplus (values.drop next)
  | rounds + 1, next, numbered, c :: cs =>
    if c = '%' then
      let (written, r) := (Reading.ofPlace values next cs).finish values
      written ++ fillFrom values rounds r.next (numbered || r.numbered) r.rest
    else c :: fillFrom values rounds next numbered cs

end Template

def filled (template : String) (values : List Template.Value) : String :=
  let cs := template.toList
  String.ofList (Template.fillFrom values (cs.length + 1) 0 false cs)

end SolidityAst.Text
