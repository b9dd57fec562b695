import SolidityAst.Yaml.Node
import SolidityAst.Yaml.Token.Scan

/-!
The first document of a stream.

Values are read from tokens by recursive descent. What follows the first document is not read.
-/
namespace SolidityAst.Yaml

structure Reader where
  tokens : Tokens
  position : Nat
  /-- The meaning of tag handles. -/
  handles : List (String × String)
  /-- The number of the value that a name anchors. -/
  names : List (String × Nat)
  anchored : List (Nat × Node)
  /-- The next number of an anchored value or an alias. -/
  fresh : Nat

/-- A step of reading; it fails where the document is malformed. -/
abbrev Read := StateT Reader Option

namespace Read

def malformed {α : Type} : Read α := fun _ => none

def peek : Read Token := fun r => (r.tokens.get? r.position).map (·, r)

def skip : Read Unit := modify fun r => { r with position := r.position + 1 }

def freshNumber : Read Nat := modifyGet fun r => (r.fresh, { r with fresh := r.fresh + 1 })

def openAnchor : Option String → Read (Option Nat)
  | none => return none
  | some name => do
    let n ← freshNumber
    modify fun r => { r with names := (name, n) :: r.names }
    return some n

def closeAnchor (n : Option Nat) (node : Node) : Read Node := do
  match n with
  | none => return node
  | some n =>
    modify fun r => { r with anchored := (n, node) :: r.anchored }
    return node

def reference (line : Nat) (name : String) : Read Node := do
  match (← get).names.lookup name with
  | none => malformed
  | some target => return .reference line name (← freshNumber) target

def shortTag (tag : String) : String :=
  let long := "tag:yaml.org,2002:"
  if tag.startsWith long then "!!" ++ (tag.drop long.length).toString else tag

def wholeTag (handle suffix : String) : Read String := do
  if handle = "" then return suffix
  match (← get).handles.lookup handle with
  | none => malformed
  | some start => if start ++ suffix = "" then malformed else return start ++ suffix

structure Properties where
  line : Nat
  anchor : Option String
  tag : Option String

def tag? : Read (Option (String × String)) := do
  match (← peek).kind with
  | .tag handle suffix => skip; return some (handle, suffix)
  | _ => return none

def anchor? : Read (Option String) := do
  match (← peek).kind with
  | .anchor name => skip; return some name
  | _ => return none

def properties : Read Properties := do
  let line := (← peek).line
  let first ← anchor?
  let tag ← tag?
  let anchor ← if first.isNone && tag.isSome then anchor? else pure first
  match tag with
  | none => return ⟨line, anchor, none⟩
  | some (handle, suffix) => return ⟨line, anchor, some (← wholeTag handle suffix)⟩

def Properties.kept (p : Properties) : Option String :=
  match p.tag with
  | some tag => if tag = "" || tag = "!" then none else some (shortTag tag)
  | none => none

def endsBlockValue : TokenKind → Bool
  | .key | .value | .blockEnd => true
  | _ => false

def endsSequenceValue : TokenKind → Bool
  | .flowEntry | .flowSequenceEnd => true
  | _ => false

def endsMappingValue : TokenKind → Bool
  | .flowEntry | .flowMappingEnd => true
  | _ => false

mutual

/-- Reads a value. `block` allows collections by indentation, `indentless` a sequence whose entries
are not indented. -/
def node (block indentless : Bool) : (fuel : Nat) → Read Node
  | 0 => malformed
  | fuel + 1 => do
    let t ← peek
    match t.kind with
    | .reference name => skip; reference t.line name
    | _ =>
      let p ← properties
      let t ← peek
      let n ← openAnchor p.anchor
      match t.kind with
      | .blockEntry =>
        if indentless then
          closeAnchor n (.sequence p.line p.kept (← indentlessItems fuel))
        else bare p n
      | .scalar style text => skip; closeAnchor n (.scalar p.line p.kept style text)
      | .flowSequence => skip; closeAnchor n (.sequence p.line p.kept (← flowItems true fuel))
      | .flowMapping => skip; closeAnchor n (.mapping p.line p.kept (← flowEntries true fuel))
      | .blockSequence =>
        if block then
          skip; closeAnchor n (.sequence p.line p.kept (← blockItems fuel))
        else bare p n
      | .blockMapping =>
        if block then
          skip; closeAnchor n (.mapping p.line p.kept (← blockEntries fuel))
        else bare p n
      | _ => bare p n
where
  /-- A value of which only an anchor or a tag is written. -/
  bare (p : Properties) (n : Option Nat) : Read Node :=
    if p.anchor.isSome || p.tag.isSome then closeAnchor n (.scalar p.line p.kept .plain "")
    else malformed

def blockItems : (fuel : Nat) → Read (List Node)
  | 0 => malformed
  | fuel + 1 => do
    let t ← peek
    match t.kind with
    | .blockEnd => skip; return []
    | .blockEntry =>
      skip
      let item ← match (← peek).kind with
        | .blockEntry | .blockEnd => pure (.nothing t.line)
        | _ => node true false fuel
      return item :: (← blockItems fuel)
    | _ => malformed

def indentlessItems : (fuel : Nat) → Read (List Node)
  | 0 => malformed
  | fuel + 1 => do
    let t ← peek
    match t.kind with
    | .blockEntry =>
      skip
      let item ← match (← peek).kind with
        | .blockEntry | .key | .value | .blockEnd => pure (.nothing t.line)
        | _ => node true false fuel
      return item :: (← indentlessItems fuel)
    | _ => return []

def blockEntries : (fuel : Nat) → Read (List (Node × Node))
  | 0 => malformed
  | fuel + 1 => do
    let t ← peek
    match t.kind with
    | .blockEnd => skip; return []
    | .key =>
      skip
      let key ← if endsBlockValue (← peek).kind then pure (.nothing t.line) else node true true fuel
      let t ← peek
      let value ←
        if t.kind = .value then do
          skip
          if endsBlockValue (← peek).kind then pure (.nothing t.line) else node true true fuel
        else pure (.nothing t.line)
      return (key, value) :: (← blockEntries fuel)
    | _ => malformed

def flowItems (first : Bool) : (fuel : Nat) → Read (List Node)
  | 0 => malformed
  | fuel + 1 => do
    let t ← peek
    if t.kind = .flowSequenceEnd then skip; return []
    if !first then
      if t.kind = .flowEntry then skip else malformed
    let t ← peek
    match t.kind with
    | .flowSequenceEnd => skip; return []
    | .key =>
      skip
      let entry ← pair fuel
      return .mapping t.line none [entry] :: (← flowItems false fuel)
    | _ =>
      let item ← node false false fuel
      return item :: (← flowItems false fuel)

/-- Reads the one entry of a mapping that is an entry of a sequence in brackets. -/
def pair : (fuel : Nat) → Read (Node × Node)
  | 0 => malformed
  | fuel + 1 => do
    let t ← peek
    let key ←
      if t.kind = .value || endsSequenceValue t.kind then do
        skip
        pure (.nothing t.line)
      else node false false fuel
    let t ← peek
    let value ←
      if t.kind = .value then do
        skip
        if endsSequenceValue (← peek).kind then pure (.nothing t.line) else node false false fuel
      else pure (.nothing t.line)
    let _ ← peek
    return (key, value)

def flowEntries (first : Bool) : (fuel : Nat) → Read (List (Node × Node))
  | 0 => malformed
  | fuel + 1 => do
    let t ← peek
    if t.kind = .flowMappingEnd then skip; return []
    if !first then
      if t.kind = .flowEntry then skip else malformed
    let t ← peek
    match t.kind with
    | .flowMappingEnd => skip; return []
    | .key =>
      skip
      let t ← peek
      let key ←
        if t.kind = .value || endsMappingValue t.kind then pure (.nothing t.line)
        else node false false fuel
      let t ← peek
      let value ←
        if t.kind = .value then do
          skip
          if endsMappingValue (← peek).kind then pure (.nothing t.line) else node false false fuel
        else pure (.nothing t.line)
      return (key, value) :: (← flowEntries false fuel)
    | _ =>
      let key ← node false false fuel
      let value := .nothing (← peek).line
      return (key, value) :: (← flowEntries false fuel)

end

/-! ## Documents -/

def usualHandles : List (String × String) := [("!", "!"), ("!!", "tag:yaml.org,2002:")]

/-- Reads the directives before a document; a version and a handle may be given once. -/
def directives : (fuel : Nat) → (versioned : Bool) → Read Unit
  | 0, _ => malformed
  | fuel + 1, versioned => do
    match (← peek).kind with
    | .version major minor =>
      if versioned || major ≠ 1 || minor ≠ 1 then malformed
      skip
      directives fuel true
    | .tagDirective handle start =>
      if ((← get).handles.lookup handle).isSome then malformed
      modify fun r => { r with handles := r.handles ++ [(handle, start)] }
      skip
      directives fuel versioned
    | _ => modify fun r => { r with handles := r.handles ++ usualHandles }

def endsDocument : TokenKind → Bool
  | .version _ _ | .tagDirective _ _ | .documentStart | .documentEnd | .streamEnd => true
  | _ => false

def startsExplicitly : TokenKind → Bool
  | .version _ _ | .tagDirective _ _ | .documentStart => true
  | _ => false

def document (fuel : Nat) : Read (Option Node) := do
  skip
  let t ← peek
  if t.kind = .streamEnd then return none
  directives fuel false
  let root ←
    if startsExplicitly t.kind then do
      if (← peek).kind ≠ .documentStart then malformed
      skip
      let t ← peek
      if endsDocument t.kind then pure (.nothing t.line) else node true false fuel
    else node true false fuel
  let _ ← peek
  return some root

end Read

/-- The first document of a stream: nothing when the stream is malformed, and otherwise the document, if
there is one. -/
def Document.ofBytes (bs : Bytes) : Option (Option Document) :=
  match readStream (if bs.isEmpty then [0x0A] else bs) with
  | none => none
  | some cs =>
    let tokens := Tokens.ofChars cs
    match Read.document (2 * tokens.list.size + 2) ⟨tokens, 0, [], [], [], 0⟩ with
    | none => none
    | some (none, _) => some none
    | some (some root, r) => some (some ⟨root, r.anchored, tokens.list.size⟩)

end SolidityAst.Yaml
