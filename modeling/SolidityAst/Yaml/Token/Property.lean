import SolidityAst.Text.Numeral
import SolidityAst.Yaml.Cursor
import SolidityAst.Yaml.Token

/-!
Reading what stands beside values: anchors, aliases, tags and directives.
-/
namespace SolidityAst.Yaml

open Text

def endsName (cs : List Char) : Bool :=
  endsWord cs || cs.head?.any fun c => ['?', ':', ',', ']', '}', '%', '@', '`'].contains c

/-- Reads the name of an anchor or alias, the cursor standing at its mark. -/
def readName (c : Cursor) : Option (String × Cursor) :=
  let (name, c) := (c.skip 1).spanWhile isWord
  if name.isEmpty || !endsName c.rest then none else some (String.ofList name, c)

/-! ## Tags -/

def isTagChar (c : Char) : Bool :=
  isWord c || [';', '/', '?', ':', '@', '&', '=', '+', '$', ',', '.', '!', '~', '*', '\'', '(', ')',
    '[', ']'].contains c

def escapedByte? : List Char → Option UInt8
  | '%' :: a :: b :: _ =>
    match Numeral.digit? a, Numeral.digit? b with
    | some x, some y => if x < 16 && y < 16 then some (x * 16 + y).toUInt8 else none
    | _, _ => none
  | _ => none

def characterLength? (b : UInt8) : Option Nat :=
  if b < 0x80 then some 1
  else if 0xC0 ≤ b && b < 0xE0 then some 2
  else if 0xE0 ≤ b && b < 0xF0 then some 3
  else if 0xF0 ≤ b && b < 0xF8 then some 4
  else none

/-- Reads the `n` escaped bytes that continue a character. -/
def continuation : (n : Nat) → Cursor → Option (Bytes × Cursor)
  | 0, c => some ([], c)
  | n + 1, c =>
    match escapedByte? c.rest with
    | none => none
    | some b =>
      if 0x80 ≤ b && b < 0xC0 then
        (continuation n (c.skip 3)).map fun (bs, c) => (b :: bs, c)
      else none

def escapedCharacter (c : Cursor) : Option (Bytes × Cursor) :=
  match escapedByte? c.rest with
  | none => none
  | some b =>
    match characterLength? b with
    | none => none
    | some n => (continuation (n - 1) (c.skip 3)).map fun (bs, c) => (b :: bs, c)

def tagBytes : (fuel : Nat) → Cursor → Option (Bytes × Cursor)
  | 0, c => some ([], c)
  | fuel + 1, c =>
    match c.rest with
    | [] => some ([], c)
    | ch :: _ =>
      if ch == '%' then
        match escapedCharacter c with
        | none => none
        | some (bs, c) => (tagBytes fuel c).map fun (more, c) => (bs ++ more, c)
      else if isTagChar ch then
        (tagBytes fuel (c.skip 1)).map fun (more, c) => (Utf8.encodeChar ch ++ more, c)
      else some ([], c)

/-- Reads the characters of a tag, at least one. -/
def readTagText (c : Cursor) : Option (String × Cursor) :=
  match tagBytes (c.rest.length + 1) c with
  | none => none
  | some (bs, c) => if bs.isEmpty then none else some (Utf8.text bs, c)

/-- Reads the start of a tag, which may be a handle: a mark, a name and perhaps a second mark. -/
def readHandle (c : Cursor) : Option (List Char × Cursor) :=
  match c.rest with
  | '!' :: _ =>
    let (name, c) := (c.skip 1).spanWhile isWord
    if c.rest.head? == some '!' then some ('!' :: name ++ ['!'], c.skip 1) else some ('!' :: name, c)
  | _ => none

def isHandle (h : List Char) : Bool := 1 < h.length && h.getLast? == some '!'

/-- Reads a tag as its handle and suffix, the cursor standing at its mark. -/
def readTag (c : Cursor) : Option (String × String × Cursor) :=
  let read : Option (String × String × Cursor) :=
    if (c.rest.drop 1).head? == some '<' then
      match readTagText (c.skip 2) with
      | none => none
      | some (tag, c) => if c.rest.head? == some '>' then some ("", tag, c.skip 1) else none
    else
      match readHandle c with
      | none => none
      | some (h, c) =>
        if isHandle h then (readTagText c).map fun (suffix, c) => (String.ofList h, suffix, c)
        else
          match tagBytes (c.rest.length + 1) c with
          | none => none
          | some (bs, c) =>
            let suffix := String.ofList (h.drop 1) ++ Utf8.text bs
            if suffix = "" then some ("", "!", c) else some ("!", suffix, c)
  read.bind fun (handle, suffix, c) => if endsWord c.rest then some (handle, suffix, c) else none

/-! ## Directives -/

/-- Reads a number of at most two digits. -/
def readVersionNumber (c : Cursor) : Option (Nat × Cursor) :=
  let (ds, c) := c.spanWhile isDigit
  if ds.isEmpty || 2 < ds.length then none
  else some (ds.foldl (fun n d => n * 10 + (d.toNat - '0'.toNat)) 0, c)

def readVersion (c : Cursor) : Option (TokenKind × Cursor) :=
  match readVersionNumber (c.skipWhile isBlank) with
  | none => none
  | some (major, c) =>
    if c.rest.head? == some '.' then
      (readVersionNumber (c.skip 1)).map fun (minor, c) => (.version major minor, c)
    else none

def readTagDirective (c : Cursor) : Option (TokenKind × Cursor) :=
  match readHandle (c.skipWhile isBlank) with
  | none => none
  | some (h, c) =>
    if (h == ['!'] || isHandle h) && c.rest.head?.any isBlank then
      match readTagText (c.skipWhile isBlank) with
      | none => none
      | some (start, c) =>
        if endsWord c.rest then some (.tagDirective (String.ofList h) start, c) else none
    else none

def readDirective (c : Cursor) : Option (TokenKind × Cursor) :=
  let (name, c) := (c.skip 1).spanWhile isWord
  if !endsWord c.rest then none
  else if name = ['Y', 'A', 'M', 'L'] then readVersion c
  else if name = ['T', 'A', 'G'] then readTagDirective c
  else none

end SolidityAst.Yaml
