import SolidityAst.Text.Numeral
import SolidityAst.Yaml.Cursor

/-!
Reading scalars: plain, quoted and in blocks.

Line breaks inside a scalar are folded: one break between two lines is read as a space, and of several
the first is dropped. A literal block keeps its breaks. Text is gathered backwards.
-/
namespace SolidityAst.Yaml

open Text

/-- The blanks and breaks since the last character of a scalar, backwards. -/
structure Gap where
  blanks : List Char
  /-- Whether a line has ended. -/
  broken : Bool
  /-- The first break. -/
  first : List Char
  /-- The breaks after the first. -/
  later : List Char

namespace Gap

def none : Gap := ⟨[], false, [], []⟩

def escaped : Gap := ⟨[], true, [], []⟩

/-- One more blank; blanks after a break do not count. -/
def blank (g : Gap) (ch : Char) : Gap := if g.broken then g else { g with blanks := ch :: g.blanks }

/-- One more break; blanks before the first do not count. -/
def newline (g : Gap) (ch : Char) : Gap :=
  if g.broken then { g with later := ch :: g.later } else ⟨[], true, [ch], []⟩

def text (g : Gap) : List Char :=
  if !g.broken then g.blanks
  else if g.first = ['\n'] then if g.later.isEmpty then [' '] else g.later
  else g.later ++ g.first

end Gap

def ofReversed (cs : List Char) : String := String.ofList cs.reverse

/-! ## Plain scalars -/

structure PlainContext where
  /-- Whether it is inside brackets. -/
  flow : Bool
  /-- The least column of its later lines. -/
  indent : Int

def endsPlain (flow : Bool) : List Char → Bool
  | [] => true
  | c :: cs => (c == ':' && endsWord cs) || (flow && [',', '?', '[', ']', '{', '}'].contains c)

def plainRest (ctx : PlainContext) :
    (fuel : Nat) → List Char → Gap → Cursor → Option (List Char × Bool × Cursor)
  | 0, read, g, c => some (read, g.broken, c)
  | fuel + 1, read, g, c =>
    let done : Option (List Char × Bool × Cursor) := some (read, g.broken, c)
    match c.rest with
    | [] => done
    | ch :: _ =>
      if isBlank ch then
        if g.broken && (c.column : Int) < ctx.indent && ch == '\t' then none
        else plainRest ctx fuel read (g.blank ch) (c.skip 1)
      else if isBreak ch then plainRest ctx fuel read (g.newline ch) c.skipLine
      else
        let afterGap := g.broken || !g.blanks.isEmpty
        if afterGap && ((!ctx.flow && (c.column : Int) < ctx.indent) || c.atDocumentMark || ch == '#')
        then done
        else if endsPlain ctx.flow c.rest then done
        else plainRest ctx fuel (ch :: (g.text ++ read)) .none (c.skip 1)

/-- Reads a plain scalar: its text, whether a line ended after it, and the cursor behind it. -/
def readPlain (ctx : PlainContext) (c : Cursor) : Option (String × Bool × Cursor) :=
  (plainRest ctx (c.rest.length + 1) [] .none c).map fun (read, broken, c) =>
    (ofReversed read, broken, c)

/-! ## Quoted scalars -/

def escapeChar? (c : Char) : Option Char :=
  if c == '0' then some '\x00'
  else if c == 'a' then some '\x07'
  else if c == 'b' then some '\x08'
  else if c == 't' || c == '\t' then some '\t'
  else if c == 'n' then some '\n'
  else if c == 'v' then some '\x0B'
  else if c == 'f' then some '\x0C'
  else if c == 'r' then some '\r'
  else if c == 'e' then some '\x1B'
  else if c == ' ' || c == '"' || c == '\'' || c == '\\' then some c
  else if c == 'N' then some (Char.ofNat 0x85)
  else if c == '_' then some (Char.ofNat 0xA0)
  else if c == 'L' then some (Char.ofNat 0x2028)
  else if c == 'P' then some (Char.ofNat 0x2029)
  else none

/-- The number of hexadecimal digits after a letter. -/
def codeLength? (c : Char) : Option Nat :=
  if c == 'x' then some 2 else if c == 'u' then some 4 else if c == 'U' then some 8 else none

/-- The character with the code in `n` hexadecimal digits. -/
def codeChar? (n : Nat) (cs : List Char) : Option Char :=
  let value (acc : Option Nat) (c : Char) : Option Nat :=
    match acc, Numeral.digit? c with
    | some v, some d => if d < 16 then some (v * 16 + d) else none
    | _, _ => none
  let ds := cs.take n
  if ds.length < n then none
  else
    (ds.foldl value (some 0)).bind fun v =>
      if (0xD800 ≤ v && v ≤ 0xDFFF) || 0x10FFFF < v then none else some (Char.ofNat v)

/-- The character of the escape after a backslash and the number of characters that the escape has. -/
def escape? : List Char → Option (Char × Nat)
  | [] => none
  | c :: cs =>
    match codeLength? c with
    | some n => (codeChar? n cs).map (·, n + 1)
    | none => (escapeChar? c).map (·, 1)

def quotedRest (single : Bool) :
    (fuel : Nat) → List Char → Gap → (fresh : Bool) → Cursor → Option (List Char × Cursor)
  | 0, _, _, _, _ => none
  | fuel + 1, read, g, fresh, c =>
    match c.rest with
    | [] => none
    | ch :: cs =>
      if isBlank ch then quotedRest single fuel read (g.blank ch) true (c.skip 1)
      else if isBreak ch then quotedRest single fuel read (g.newline ch) true c.skipLine
      else if fresh && c.atDocumentMark then none
      else
        let read := g.text ++ read
        if single then
          match ch, cs with
          | '\'', '\'' :: _ => quotedRest single fuel ('\'' :: read) .none false (c.skip 2)
          | '\'', _ => some (read, c.skip 1)
          | _, _ => quotedRest single fuel (ch :: read) .none false (c.skip 1)
        else if ch == '"' then some (read, c.skip 1)
        else if ch == '\\' then
          if cs.head?.any isBreak then quotedRest single fuel read .escaped true (c.skip 1).skipLine
          else
            match escape? cs with
            | none => none
            | some (e, n) => quotedRest single fuel (e :: read) .none false (c.skip (n + 1))
        else quotedRest single fuel (ch :: read) .none false (c.skip 1)

def readQuoted (single : Bool) (c : Cursor) : Option (String × Cursor) :=
  (quotedRest single (c.rest.length + 1) [] .none true (c.skip 1)).map fun (read, c) =>
    (ofReversed read, c)

/-! ## Block scalars -/

inductive Chomping where
  | strip
  | clip
  | keep
  deriving DecidableEq

def chomping? : Char → Option Chomping
  | '+' => some .keep
  | '-' => some .strip
  | _ => none

def increment? (c : Char) : Option Nat := if isDigit c then some (c.toNat - '0'.toNat) else none

/-- The chomping and the indentation (zero when it is not given) after the mark of a block, and the
cursor behind them. -/
def readHeader (c : Cursor) : Option (Chomping × Nat × Cursor) :=
  match c.rest with
  | [] => some (.clip, 0, c)
  | a :: cs =>
    match chomping? a, increment? a with
    | some chomp, _ =>
      match cs.head?.bind increment? with
      | some n => if n = 0 then none else some (chomp, n, c.skip 2)
      | none => some (chomp, 0, c.skip 1)
    | none, some n =>
      if n = 0 then none
      else
        match cs.head?.bind chomping? with
        | some chomp => some (chomp, n, c.skip 2)
        | none => some (.clip, n, c.skip 1)
    | none, none => some (.clip, 0, c)

/-- Moves past the rest of a line on which only blanks and a comment may stand. -/
def finishLine (c : Cursor) : Option Cursor :=
  let c := c.skipWhile isBlank
  let c := if c.rest.head? == some '#' then c.toBreak else c
  match c.rest with
  | [] => some c
  | ch :: _ => if isBreak ch then some c.skipLine else none

/-- Moves past indentation and empty lines. Gives the largest column that was reached and the breaks
that were passed, backwards. With an indentation of zero all spaces count as indentation. -/
def skipIndentation (indent : Nat) :
    (fuel : Nat) → (deepest : Nat) → (breaks : List Char) → Cursor → Option (Nat × List Char × Cursor)
  | 0, deepest, breaks, c => some (deepest, breaks, c)
  | fuel + 1, deepest, breaks, c =>
    let spaces := (c.rest.takeWhile (· == ' ')).length
    let c := c.skip (if indent = 0 then spaces else min spaces (indent - c.column))
    let deepest := max deepest c.column
    match c.rest with
    | [] => some (deepest, breaks, c)
    | ch :: _ =>
      if ch == '\t' && (indent = 0 || c.column < indent) then none
      else if isBreak ch then skipIndentation indent fuel deepest (ch :: breaks) c.skipLine
      else some (deepest, breaks, c)

/-- Reads the lines of a block onto what was read. `ended` is the break of the line before, `breaks`
those of the empty lines after it, and `spaced` says whether the line before starts with a blank. -/
def blockLines (literal : Bool) (indent : Nat) :
    (fuel : Nat) → (read ended breaks : List Char) → (spaced : Bool) → Cursor →
      Option (List Char × List Char × List Char × Cursor)
  | 0, read, ended, breaks, _, c => some (read, ended, breaks, c)
  | fuel + 1, read, ended, breaks, spaced, c =>
    match c.rest with
    | [] => some (read, ended, breaks, c)
    | ch :: _ =>
      if c.column ≠ indent then some (read, ended, breaks, c)
      else
        let fold := !literal && !spaced && !isBlank ch && ended == ['\n']
        let joint := if fold then if breaks.isEmpty then [' '] else [] else ended
        let (line, c) := c.spanWhile fun ch => !isBreak ch
        let read := line.reverse ++ (breaks ++ (joint ++ read))
        let ended := c.rest.take 1
        let c := if ended.isEmpty then c else c.skipLine
        match skipIndentation indent (c.rest.length + 1) 0 [] c with
        | none => none
        | some (_, breaks, c) => blockLines literal indent fuel read ended breaks (isBlank ch) c

/-- The indentation of a block whose header gives none: that of its deepest leading line, but more
than the indentation around it. -/
def blockIndent (around : Int) (deepest : Nat) : Nat :=
  max (max deepest (around + 1).toNat) 1

/-- Reads a block scalar, the cursor standing at its mark; `around` is the indentation around it. -/
def readBlock (literal : Bool) (around : Int) (c : Cursor) : Option (String × Cursor) :=
  match readHeader (c.skip 1) with
  | none => none
  | some (chomp, increment, c) =>
    match finishLine c with
    | none => none
    | some c =>
      let given : Nat := if increment = 0 then 0 else (max around 0).toNat + increment
      match skipIndentation given (c.rest.length + 1) 0 [] c with
      | none => none
      | some (deepest, breaks, c) =>
        let indent := if given = 0 then blockIndent around deepest else given
        match blockLines literal indent (c.rest.length + 1) [] [] breaks false c with
        | none => none
        | some (read, ended, breaks, c) =>
          let tail :=
            match chomp with
            | .strip => []
            | .clip => ended
            | .keep => breaks ++ ended
          some (ofReversed (tail ++ read), c)

end SolidityAst.Yaml
