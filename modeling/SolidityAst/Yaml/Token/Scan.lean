import SolidityAst.Yaml.Token
import SolidityAst.Yaml.Token.Property
import SolidityAst.Yaml.Token.Scalar

/-!
The tokens of a stream.

Block structure is not written but follows from indentation: a deeper column opens a collection, a
shallower one closes those that are deeper. A key need not be marked either: what may be one is
remembered, and when a `:` follows, the token that marks a key is put before it.
-/
namespace SolidityAst.Yaml

structure SimpleKey where
  /-- Whether there must be a key. -/
  required : Bool
  /-- The number of the token that would be the key. -/
  number : Nat
  line : Nat
  column : Nat
  index : Nat
  deriving DecidableEq, Repr

structure Scanner where
  cursor : Cursor
  /-- The tokens that were read, the last one first. -/
  tokens : List Token
  /-- The column of the block that is open; before all columns when none is. -/
  indent : Int
  /-- The columns of the blocks around it. -/
  outer : List Int
  /-- The possible key on each level of brackets, the innermost first. -/
  keys : List (Option SimpleKey)
  /-- Whether an unmarked key may start here. -/
  keyAllowed : Bool

namespace Scanner

def start (cs : List Char) : Scanner :=
  ⟨.start cs, [⟨.streamStart, 0⟩], -1, [], [none], true⟩

def inFlow (s : Scanner) : Bool := 1 < s.keys.length

def maxDepth : Nat := 10000

def push (s : Scanner) (kind : TokenKind) (line : Nat) : Scanner :=
  { s with tokens := ⟨kind, line⟩ :: s.tokens }

/-- Adds a token of `n` characters. -/
def take (s : Scanner) (kind : TokenKind) (n : Nat) : Scanner :=
  { s.push kind s.cursor.line with cursor := s.cursor.skip n }

def insert (s : Scanner) (number : Nat) (t : Token) : Scanner :=
  let after := s.tokens.length - number
  { s with tokens := s.tokens.take after ++ t :: s.tokens.drop after }

/-! ## Indentation -/

def unrollTo (column : Int) (line : Nat) (indent : Int) (tokens : List Token) :
    List Int → Int × List Int × List Token
  | [] => (indent, [], tokens)
  | o :: outer =>
    if column < indent then unrollTo column line o (⟨.blockEnd, line⟩ :: tokens) outer
    else (indent, o :: outer, tokens)

/-- Closes blocks that are deeper than a column; inside brackets indentation does not count. -/
def unroll (s : Scanner) (column : Int) : Scanner :=
  if s.inFlow then s
  else
    let (indent, outer, tokens) := unrollTo column s.cursor.line s.indent s.tokens s.outer
    { s with indent := indent, outer := outer, tokens := tokens }

/-- Opens a block at a column that is deeper; its token goes before the one with the given number. -/
def roll (s : Scanner) (column : Nat) (number : Nat) (t : Token) : Option Scanner :=
  if s.inFlow || (column : Int) ≤ s.indent then some s
  else if maxDepth ≤ s.outer.length then none
  else some { s.insert number t with indent := column, outer := s.indent :: s.outer }

/-! ## Unmarked keys -/

/-- Whether a key may still follow: it has to be on one line and not too long. -/
def isFresh (s : Scanner) (k : SimpleKey) : Bool :=
  k.line == s.cursor.line && s.cursor.index ≤ k.index + 1024

/-- Gives up the possible key on the current level, if there need not be one. -/
def dropKey (s : Scanner) : Option Scanner :=
  match s.keys with
  | some k :: keys => if k.required then none else some { s with keys := none :: keys }
  | _ => some s

def saveKey (s : Scanner) : Option Scanner :=
  if s.keyAllowed then
    let c := s.cursor
    let k : SimpleKey :=
      ⟨!s.inFlow && s.indent == c.column, s.tokens.length, c.line, c.column, c.index⟩
    s.dropKey.map fun s => { s with keys := some k :: s.keys.drop 1 }
  else some s

def pending (s : Scanner) : List Nat :=
  s.keys.filterMap fun k => (k.filter s.isFresh).map SimpleKey.number

/-! ## Tokens -/

def takeEnd (s : Scanner) : Option Scanner :=
  ((s.unroll (-1)).dropKey).map fun s =>
    { s.push .streamEnd s.cursor.line with keyAllowed := false }

def takeOuter (s : Scanner) (kind : TokenKind) (after : Cursor) : Option Scanner :=
  ((s.unroll (-1)).dropKey).map fun s =>
    { s.push kind s.cursor.line with cursor := after, keyAllowed := false }

def takeOpening (s : Scanner) (kind : TokenKind) : Option Scanner :=
  s.saveKey.bind fun s =>
    if maxDepth < s.keys.length then none
    else some { s.take kind 1 with keys := none :: s.keys, keyAllowed := true }

def takeClosing (s : Scanner) (kind : TokenKind) : Option Scanner :=
  s.dropKey.map fun s =>
    { s.take kind 1 with keys := if s.inFlow then s.keys.drop 1 else s.keys, keyAllowed := false }

def takeFlowEntry (s : Scanner) : Option Scanner :=
  s.dropKey.map fun s => { s.take .flowEntry 1 with keyAllowed := true }

/-- Opens a block at the cursor, outside brackets and where a key may start. -/
def rollHere (s : Scanner) (kind : TokenKind) : Option Scanner :=
  if s.inFlow then some s
  else if !s.keyAllowed then none
  else s.roll s.cursor.column s.tokens.length ⟨kind, s.cursor.line⟩

def takeBlockEntry (s : Scanner) : Option Scanner :=
  ((s.rollHere .blockSequence).bind dropKey).map fun s =>
    { s.take .blockEntry 1 with keyAllowed := true }

def takeKey (s : Scanner) : Option Scanner :=
  ((s.rollHere .blockMapping).bind dropKey).map fun s =>
    { s.take .key 1 with keyAllowed := !s.inFlow }

def takeMarkedValue (s : Scanner) : Option Scanner :=
  (s.rollHere .blockMapping).map fun s => { s.take .value 1 with keyAllowed := !s.inFlow }

/-- The mark of a value. It makes a key of what was remembered as one. -/
def takeValue (s : Scanner) : Option Scanner :=
  match s.keys with
  | some k :: keys =>
    if s.isFresh k then
      ((s.insert k.number ⟨.key, k.line⟩).roll k.column k.number ⟨.blockMapping, k.line⟩).map fun s =>
        { s.take .value 1 with keys := none :: keys, keyAllowed := false }
    else if k.required then none
    else takeMarkedValue { s with keys := none :: keys }
  | _ => s.takeMarkedValue

def takeValueToken (s : Scanner) (kind : TokenKind) (after : Cursor) : Option Scanner :=
  s.saveKey.map fun s => { s.push kind s.cursor.line with cursor := after, keyAllowed := false }

def takePlain (s : Scanner) : Option Scanner :=
  match readPlain ⟨s.inFlow, s.indent + 1⟩ s.cursor with
  | none => none
  | some (text, broken, after) =>
    (s.takeValueToken (.scalar .plain text) after).map fun s => { s with keyAllowed := broken }

def takeBlock (s : Scanner) (literal : Bool) : Option Scanner :=
  match readBlock literal s.indent s.cursor with
  | none => none
  | some (text, after) =>
    s.dropKey.map fun s =>
      { s.push (.scalar .block text) s.cursor.line with cursor := after, keyAllowed := true }

def indicators : List Char := "-?:,[]\x7b\x7d#&*!|>'\"%@`".toList

def startsPlain (flow : Bool) : List Char → Bool
  | [] => false
  | c :: cs =>
    (!isBlank c && !isBreak c && !indicators.contains c)
      || (c == '-' && !cs.head?.any isBlank)
      || (!flow && (c == '?' || c == ':') && !endsWord cs)

/-- The token at the cursor, which is neither a directive nor a document mark. -/
def takeToken (s : Scanner) : Option Scanner :=
  let c := s.cursor
  match c.rest with
  | [] => none
  | ch :: cs =>
    if ch == '[' then s.takeOpening .flowSequence
    else if ch == '{' then s.takeOpening .flowMapping
    else if ch == ']' then s.takeClosing .flowSequenceEnd
    else if ch == '}' then s.takeClosing .flowMappingEnd
    else if ch == ',' then s.takeFlowEntry
    else if ch == '-' && endsWord cs then s.takeBlockEntry
    else if ch == '?' && (s.inFlow || endsWord cs) then s.takeKey
    else if ch == ':' && (s.inFlow || endsWord cs) then s.takeValue
    else if ch == '*' then (readName c).bind fun (n, after) => s.takeValueToken (.reference n) after
    else if ch == '&' then (readName c).bind fun (n, after) => s.takeValueToken (.anchor n) after
    else if ch == '!' then (readTag c).bind fun (h, t, after) => s.takeValueToken (.tag h t) after
    else if ch == '|' && !s.inFlow then s.takeBlock true
    else if ch == '>' && !s.inFlow then s.takeBlock false
    else if ch == '\'' || ch == '"' then
      (readQuoted (ch == '\'') c).bind fun (text, after) =>
        s.takeValueToken (.scalar .quoted text) after
    else if startsPlain s.inFlow c.rest then s.takePlain
    else none

/-- Whether a comment on the same line belongs to the last token: not when that is the mark of an
entry, and not when it went on to a later line. -/
def takesLineComment (s : Scanner) : Bool :=
  match s.tokens with
  | ⟨.blockEntry, _⟩ :: _ => false
  | ⟨.scalar .block _, _⟩ :: _ => false
  | ⟨.scalar .plain _, _⟩ :: _ => !s.keyAllowed
  | _ => true

/-- Moves past blanks, breaks and comments. A tab is no indentation: where a key may start it is not
passed. -/
def toToken : (fuel : Nat) → Scanner → Scanner
  | 0, s => s
  | fuel + 1, s =>
    let c := s.cursor.skipWhile fun ch => ch == ' ' || (ch == '\t' && (s.inFlow || !s.keyAllowed))
    let c := if c.rest.head? == some '#' then c.skipComments c.rest.length else c
    match c.rest with
    | [] => { s with cursor := c }
    | ch :: _ =>
      if isBreak ch then
        toToken fuel { s with cursor := c.skipLine, keyAllowed := s.keyAllowed || !s.inFlow }
      else { s with cursor := c }

def next (s : Scanner) : Option Scanner :=
  let s := s.toToken (s.cursor.rest.length + 1)
  let s := s.unroll s.cursor.column
  let c := s.cursor
  if c.rest.isEmpty then s.takeEnd
  else if c.column == 0 && c.rest.head? == some '%' then
    match readDirective c with
    | none => none
    | some (kind, after) => (finishLine after).bind (s.takeOuter kind)
  else if c.atDocumentMark then
    s.takeOuter (if c.rest.head? == some '-' then .documentStart else .documentEnd) (c.skip 3)
  else
    s.takeToken.map fun s =>
      if s.takesLineComment then { s with cursor := s.cursor.skipLineComment } else s

end Scanner

/-- The tokens of a stream, as far as they can be read. -/
structure Tokens where
  list : Array Token
  /-- When reading failed: the tokens that might have turned out to be keys. -/
  failed : Option (List Nat)

def scanRest : (fuel : Nat) → Scanner → Tokens
  | 0, s => ⟨s.tokens.reverse.toArray, some s.pending⟩
  | fuel + 1, s =>
    match s.next with
    | none => ⟨s.tokens.reverse.toArray, some s.pending⟩
    | some s =>
      match s.tokens with
      | ⟨.streamEnd, _⟩ :: _ => ⟨s.tokens.reverse.toArray, none⟩
      | _ => scanRest fuel s

/-- The tokens of a stream. Every token but the last takes a character. -/
def Tokens.ofChars (cs : List Char) : Tokens := scanRest (cs.length + 1) (.start cs)

/-- The token with a number. Reading is three tokens ahead, and further while a token may turn out to
be a key: where that fails, so does this. -/
def Tokens.get? (t : Tokens) (i : Nat) : Option Token :=
  match t.failed with
  | none => t.list[i]? <|> t.list.back?
  | some pending => if t.list.size ≤ i + 2 || pending.contains i then none else t.list[i]?

end SolidityAst.Yaml
