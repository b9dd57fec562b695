import SolidityAst.Host.Environment
import SolidityAst.Text.Blank
import SolidityAst.Text.Quoted

/-!
Variables in a file.

A file gives variables as `NAME=value` or `NAME: value`, with an optional `export` before the name. A
value runs to the end of its line, or between quotes over any number of lines. Variables that were
given before can be used in later values, except between single quotes.
-/
namespace SolidityAst.Settings.EnvFile

open Text

def isChar (c : Char) (r : Rune) : Bool := r == .char c

/-- The blanks inside a line, by their codes. -/
def isInnerBlank (n : Nat) : Bool :=
  n == 0x09 || n == 0x0B || n == 0x0C || n == 0x0D || n == 0x20 || n == 0x85 || n == 0xA0

def isSpace : Rune → Bool
  | .char c => isInnerBlank c.toNat
  | .stray _ => false

def isAnyBlank : Rune → Bool
  | .char c => isBlank c
  | .stray _ => false

def textOf (rs : List Rune) : String := String.ofList (rs.map Rune.toChar)

def quote (rs : List Rune) : String := String.ofList ('"' :: rs.flatMap Quoted.rune ++ ['"'])

/-- Reads a carriage return before a line feed as part of it. -/
def joinBreaks : List Rune → List Rune
  | [] => []
  | .char '\r' :: .char '\n' :: rs => .char '\n' :: joinBreaks rs
  | r :: rs => r :: joinBreaks rs

def toStatement : (comment : Bool) → List Rune → List Rune
  | _, [] => []
  | true, r :: rs => toStatement (!isChar '\n' r) rs
  | false, r :: rs =>
    if isAnyBlank r then toStatement false rs
    else if isChar '#' r then toStatement true rs
    else r :: rs

/-! ## Names -/

/-- The letters and numbers among the first 256 characters. -/
def isLetterOrNumber (n : Nat) : Bool :=
  (0x30 ≤ n && n ≤ 0x39) || (0x41 ≤ n && n ≤ 0x5A) || (0x61 ≤ n && n ≤ 0x7A) || n == 0xAA || n == 0xB2
    || n == 0xB3 || n == 0xB5 || n == 0xB9 || n == 0xBA || (0xBC ≤ n && n ≤ 0xBE)
    || (0xC0 ≤ n && n ≤ 0xD6) || (0xD8 ≤ n && n ≤ 0xF6) || (0xF8 ≤ n && n ≤ 0xFF)

def isNameByte (b : UInt8) : Bool :=
  isInnerBlank b.toNat || isLetterOrNumber b.toNat || b == 0x2E || b == 0x5F

/-- The first byte that cannot be part of a name, before the mark that ends the name. -/
def badByte? : List Rune → Option UInt8
  | [] => none
  | r :: rs =>
    if isChar '=' r || isChar ':' r then none
    else
      match (Utf8.runeBytes r).find? (!isNameByte ·) with
      | some b => some b
      | none => badByte? rs

/-- Drops the word `export` and the blanks after it. -/
def dropExport (rs : List Rune) : List Rune :=
  let word := "export".toList.map Rune.char
  if word.isPrefixOf rs then
    match rs.drop word.length with
    | r :: rest => if isSpace r then rest.dropWhile isSpace else rs
    | [] => rs
  else rs

/-- Reads a name: gives it and what follows its mark. Without a mark the name is empty and nothing is
passed. -/
def readName (rs : List Rune) : Except String (String × List Rune) :=
  let rs := dropExport (rs.dropWhile isSpace)
  match badByte? rs with
  | some b =>
    .error ("unexpected character " ++ quote [.char (Char.ofNat b.toNat)] ++ " in variable name near "
      ++ quote rs)
  | none =>
    if rs.isEmpty then .error "zero length string"
    else
      let name := rs.takeWhile fun r => !(isChar '=' r || isChar ':' r)
      match rs.drop name.length with
      | [] => .ok ("", rs.dropWhile isSpace)
      | _ :: rest =>
        .ok (String.ofList (dropEndWhile isBlank (name.map Rune.toChar)), rest.dropWhile isSpace)

/-! ## Values -/

abbrev Variables := List (String × String)

def isUsedName (c : Char) : Bool := ('A' ≤ c && c ≤ 'Z') || ('0' ≤ c && c ≤ '9') || c == '_'

/-- The name that is used after a dollar sign, and the number of characters of the use. -/
def usedName (cs : List Char) : List Char × Nat :=
  let opened := if cs.head? == some '(' then 1 else 0
  let braced := if (cs.drop opened).head? == some '{' then 1 else 0
  let name := (cs.drop (opened + braced)).takeWhile isUsedName
  let taken := opened + braced + name.length
  (name, if (cs.drop taken).head? == some '}' then taken + 1 else taken)

/-- Puts in variables where they are used; a backslash before the dollar sign prevents that. -/
def expand (vars : Variables) : (fuel : Nat) → List Char → List Char
  | 0, cs => cs
  | _, [] => []
  | fuel + 1, '\\' :: '$' :: cs =>
    let (_, n) := usedName cs
    '$' :: cs.take n ++ expand vars fuel (cs.drop n)
  | fuel + 1, '$' :: cs =>
    let (name, n) := usedName cs
    let used :=
      if name.isEmpty then '$' :: cs.take n
      else ((Assoc.find? (String.ofList name) vars).getD "").toList
    used ++ expand vars fuel (cs.drop n)
  | fuel + 1, c :: cs => c :: expand vars fuel cs

/-- Reads escaped line feeds and carriage returns; other escapes stay. -/
def readBreaks : List Char → List Char
  | [] => []
  | '\\' :: c :: cs =>
    if c == 'n' then '\n' :: readBreaks cs
    else if c == 'r' then '\r' :: readBreaks cs
    else '\\' :: c :: readBreaks cs
  | c :: cs => c :: readBreaks cs

/-- Drops the backslashes of escapes, except before a dollar sign. -/
def dropEscapes : List Char → List Char
  | [] => []
  | '\\' :: c :: cs => if c == '$' then '\\' :: dropEscapes (c :: cs) else c :: dropEscapes cs
  | c :: cs => c :: dropEscapes cs

def dropComment (line : List Rune) : List Rune :=
  match lastMark line.reverse with
  | some n => line.take n
  | none => line
where
  /-- The place of the last comment mark that follows a blank, in a line backwards. -/
  lastMark : List Rune → Option Nat
    | r :: s :: rest =>
      if isChar '#' r && isSpace s then some (rest.length + 1) else lastMark (s :: rest)
    | _ => none

def trimRunes (p : Rune → Bool) (rs : List Rune) : List Rune :=
  ((rs.dropWhile p).reverse.dropWhile p).reverse

def plainValue (vars : Variables) (rs : List Rune) : String × List Rune :=
  let line := rs.takeWhile fun r => !(isChar '\n' r || isChar '\r' r)
  let cs := (trimRunes isSpace (dropComment line)).map Rune.toChar
  (String.ofList (expand vars cs.length cs), rs.drop line.length)

/-- The number of runes before the quote that ends a value; a backslash before a quote keeps it from
doing so. -/
def closing? (q : Char) : (before : Rune) → List Rune → Option Nat
  | _, [] => none
  | before, r :: rs =>
    if isChar q r && !isChar '\\' before then some 0 else (closing? q r rs).map (· + 1)

def quotedValue (vars : Variables) (q : Char) (rs : List Rune) : Except String (String × List Rune) :=
  match closing? q (.char q) (rs.drop 1) with
  | none => .error ("unterminated quoted value " ++ textOf (rs.takeWhile (!isChar '\n' ·)))
  | some n =>
    let cs := (trimRunes (isChar q) (rs.take (n + 1))).map Rune.toChar
    let cs :=
      if q == '"' then
        let cs := dropEscapes (readBreaks cs)
        expand vars cs.length cs
      else cs
    .ok (String.ofList cs, rs.drop (n + 2))

def readValue (vars : Variables) : List Rune → Except String (String × List Rune)
  | rs@(.char '"' :: _) => quotedValue vars '"' rs
  | rs@(.char '\'' :: _) => quotedValue vars '\'' rs
  | rs => .ok (plainValue vars rs)

/-! ## Files -/

/-- Reads the variables of a file onto those that were given. Every variable takes a character. -/
def readAll : (fuel : Nat) → Variables → List Rune → Except String Variables
  | 0, vars, _ => .ok vars
  | fuel + 1, vars, rs =>
    match toStatement false rs with
    | [] => .ok vars
    | rs =>
      match readName rs with
      | .error e => .error e
      | .ok (name, rs) =>
        match readValue vars rs with
        | .error e => .error e
        | .ok (value, rs) => readAll fuel (Assoc.insert name value vars) rs

def parse (content : Bytes) : Except String Variables :=
  let rs := joinBreaks (Utf8.decode content)
  readAll (rs.length + 1) [] rs

def isSettable (v : String × String) : Bool := v.1 ≠ "" && !v.2.toList.contains '\x00'

def addTo (env : Environment) (vars : Variables) : Environment :=
  (vars.filter fun v => isSettable v && !env.isSet v.1).foldl (fun e v => e.set v.1 v.2) env

end SolidityAst.Settings.EnvFile
