import SolidityAst.Yaml.Stream

/-!
A place in a YAML stream, and the ways to move on from it.
-/
namespace SolidityAst.Yaml

/-- The characters that are left, and where the first of them stands. Lines and columns count from
zero. -/
structure Cursor where
  rest : List Char
  line : Nat
  column : Nat
  index : Nat

namespace Cursor

def start (cs : List Char) : Cursor := ⟨cs, 0, 0, 0⟩

def skip (n : Nat) (c : Cursor) : Cursor :=
  { c with rest := c.rest.drop n, column := c.column + n, index := c.index + n }

def skipLine (c : Cursor) : Cursor := ⟨c.rest.drop 1, c.line + 1, 0, c.index + 1⟩

def step (c : Cursor) : Cursor :=
  match c.rest with
  | [] => c
  | ch :: _ => if isBreak ch then c.skipLine else c.skip 1

/-- Moves past `n` characters. -/
def steps : (n : Nat) → Cursor → Cursor
  | 0, c => c
  | n + 1, c => steps n c.step

/-- The characters up to the first that does not satisfy `p`, and the cursor behind them. They must
not be breaks. -/
def spanWhile (p : Char → Bool) (c : Cursor) : List Char × Cursor :=
  (c.rest.takeWhile p, c.skip (c.rest.takeWhile p).length)

/-- Moves past the characters that satisfy `p`, which must not be breaks. -/
def skipWhile (p : Char → Bool) (c : Cursor) : Cursor := (c.spanWhile p).2

def toBreak (c : Cursor) : Cursor := c.skipWhile fun ch => !isBreak ch

/-- Whether three equal dashes or points stand alone at the start of a line. -/
def atDocumentMark (c : Cursor) : Bool :=
  c.column == 0 &&
    match c.rest with
    | '-' :: '-' :: '-' :: cs => endsWord cs
    | '.' :: '.' :: '.' :: cs => endsWord cs
    | _ => false

/-! ## Comments -/

/-- How far a comment is looked for. -/
def reach : Nat := 512

/-- The number of characters from a line feed to a comment on one of the next lines, if only blanks and
line feeds lie between. -/
def toNextComment? (c : Cursor) : Option Nat :=
  match c.rest with
  | '\n' :: cs =>
    let between := cs.takeWhile fun ch => isBlank ch || ch == '\n'
    match cs.drop between.length with
    | '#' :: _ => if between.length + 1 < reach then some (between.length + 1) else none
    | _ => none
  | _ => none

def skipComments : (fuel : Nat) → Cursor → Cursor
  | 0, c => c.toBreak
  | fuel + 1, c =>
    let c := c.toBreak
    match c.toNextComment? with
    | none => c
    | some n => skipComments fuel (c.steps n)

def skipLineComment (c : Cursor) : Cursor :=
  let (blanks, behind) := c.spanWhile isBlank
  match behind.rest with
  | '#' :: _ => if blanks.length < reach then behind.toBreak else c
  | _ => c

end Cursor

end SolidityAst.Yaml
