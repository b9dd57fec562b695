import SolidityAst.Text.Quoted
import SolidityAst.Yaml.Document
import SolidityAst.Yaml.Resolution

/-!
Decoding documents into records.

A value that does not fit its place is noted and left out, and decoding goes on; only a document that
makes no sense at all ends it. Each kind of value has a name, which the notes mention.
-/
namespace SolidityAst.Yaml

open Text

inductive Problem where
  | malformed
  /-- Values do not fit; one note for each. -/
  | mismatched (notes : List String)
  deriving DecidableEq, Repr

def Problem.message : Problem → String
  | malformed => "yaml: malformed document"
  | mismatched notes => "yaml: unmarshal errors:\n  " ++ "\n  ".intercalate notes

/-- A step of decoding. It keeps notes; it fails where the document makes no sense. -/
abbrev Decode := StateT (List String) Option

namespace Decode

def malformed {α : Type} : Decode α := fun _ => none

def note (text : String) : Decode Unit := modify (· ++ [text])

/-- A text of at most ten bytes, or the first seven of more. -/
def excerpt (s : String) : String :=
  let bs := Utf8.encode s
  if 10 < bs.length then Utf8.text (bs.take 7) ++ "..." else s

def mismatch (n : Node) (kind : String) : Decode Unit :=
  let tag := n.tag
  let shown := if tag = "!!seq" || tag = "!!map" then "" else " `" ++ excerpt n.text ++ "`"
  note s!"line {n.line + 1}: cannot unmarshal {tag}{shown} into {kind}"

def repetitions (k : Node) (later : List (Node × Node)) : List String :=
  (later.filter fun (again, _) => k.sameKind again && k.text == again.text).map fun (again, _) =>
    s!"line {again.line + 1}: mapping key {quoted again.text} already defined at line {k.line + 1}"

/-- Notes keys that occur more than once; says whether there is none. -/
def uniqueKeys : List (Node × Node) → Decode Bool
  | [] => return true
  | (k, _) :: entries => do
    let notes := repetitions k entries
    modify (· ++ notes)
    let rest ← uniqueKeys entries
    return notes.isEmpty && rest

def follow (d : Document) : Node → Node
  | .reference _ _ _ target => d.target target
  | n => n

def meaningOf (n : Node) : Decode Meaning :=
  match meaning n.tag n.text with
  | some m => return m
  | none => malformed

def refuseCollection (n : Node) (kind : String) : Decode Unit := do
  match n with
  | .mapping _ _ entries => if ← uniqueKeys entries then mismatch n kind
  | _ => mismatch n kind

/-- Decodes a value for which a scalar is wanted: `take` says what a meaning other than null gives. -/
def scalarOf {α : Type} (d : Document) (kind : String) (take : Node → Meaning → Option α) (n : Node) :
    Decode (Option α) := do
  let n := follow d n
  match n with
  | .scalar .. =>
    match ← meaningOf n with
    | .null => return none
    | m =>
      match take n m with
      | some a => return some a
      | none => mismatch n kind; return none
  | _ => refuseCollection n kind; return none

/-- Decodes a text: every scalar is one, as it is written. -/
def text (d : Document) : Node → Decode (Option String) :=
  scalarOf d "string" fun n m =>
    match m with
    | .text s => some s
    | _ => some n.text

/-- Decodes an integer; a fractional number loses its fraction. -/
def integer (d : Document) : Node → Decode (Option Int) :=
  scalarOf d "int" fun _ m =>
    match m with
    | .integer n => if n < Word.half then some n else none
    | .real x => if x ≤ 9223372036854775808 then some (Double.wholePart x) else none
    | _ => none

/-- Decodes a truth value, which may also be one of the words `y`, `yes`, `on`, `n`, `no`, `off`. -/
def truth (d : Document) : Node → Decode (Option Bool) :=
  scalarOf d "bool" fun _ m =>
    match m with
    | .truth b => some b
    | .text s =>
      if ["y", "Y", "yes", "on"].contains s then some true
      else if ["n", "N", "no", "off"].contains s then some false
      else none
    | _ => none

def isNull (d : Document) (n : Node) : Decode Bool := do
  match follow d n with
  | n@(.scalar ..) =>
    match ← meaningOf n with
    | .null => return true
    | _ => return false
  | _ => return false

/-- Decodes texts; null is no text, and in the place of the whole list it is an empty list. -/
def texts (d : Document) (n : Node) : Decode (Option (List String)) := do
  let n := follow d n
  match n with
  | .sequence _ _ items =>
    let read ← items.mapM (text d)
    return some (read.filterMap id)
  | .scalar .. =>
    match ← meaningOf n with
    | .null => return some []
    | _ => mismatch n "[]string"; return none
  | _ => refuseCollection n "[]string"; return none

/-! ## Records -/

structure Fields (ρ : Type) where
  /-- The name of the record. -/
  kind : String
  /-- What the value under a key does to the record. -/
  field? : String → Option (Node → ρ → Decode ρ)

structure Filled (ρ : Type) where
  record : ρ
  /-- The keys that count no more, when mappings are merged. -/
  seen : Option (List String)
  /-- The fields that were set by this mapping. -/
  done : List String
  /-- The value whose entries are merged in. -/
  merge : Option Node

def entry {ρ : Type} (d : Document) (fs : Fields ρ) (r : Filled ρ) (e : Node × Node) :
    Decode (Filled ρ) := do
  if e.1.isMerge then return { r with merge := some e.2 }
  match ← text d e.1 with
  | none => return r
  | some key =>
    if r.seen.any (·.contains key) then return r
    let r := { r with seen := r.seen.map (key :: ·) }
    match fs.field? key with
    | none => return r
    | some set =>
      if r.done.contains key then
        note s!"line {e.1.line + 1}: field {key} already set in type {fs.kind}"
        return r
      return { r with record := ← set e.2 r.record, done := key :: r.done }

def isMergeable (d : Document) (n : Node) : Bool :=
  match follow d n with
  | .mapping .. => true
  | _ => false

/-- The values that are merged; nothing when they are not all mappings. -/
def mergeSources (d : Document) (n : Node) : Option (List Node) :=
  match n with
  | .sequence _ _ items => if items.all (isMergeable d) then some items else none
  | _ => if isMergeable d n then some [n] else none

/-- Decodes a value into a record. `visited` holds the aliases that are being followed, `seen` the keys
that count no more. -/
def record {ρ : Type} (d : Document) (fs : Fields ρ) :
    (fuel : Nat) → (visited : List Nat) → (seen : Option (List String)) → Node → ρ →
      Decode (ρ × Option (List String))
  | 0, _, _, _, _ => malformed
  | fuel + 1, visited, seen, n, r => do
    match n with
    | .reference _ _ number target =>
      if visited.contains number then malformed
      else record d fs fuel (number :: visited) seen (d.target target) r
    | .scalar .. =>
      match ← meaningOf n with
      | .null => return (r, seen)
      | _ => mismatch n fs.kind; return (r, seen)
    | .sequence .. => mismatch n fs.kind; return (r, seen)
    | .mapping _ _ entries =>
      if !(← uniqueKeys entries) then return (r, seen)
      let filled ← entries.foldlM (entry d fs) ⟨r, seen, [], none⟩
      match filled.merge with
      | none => return (filled.record, filled.seen)
      | some m =>
        match mergeSources d m with
        | none => malformed
        | some sources =>
          let keys := filled.seen.getD (entries.map fun (k, _) => (follow d k).text)
          let (r, keys) ← sources.foldlM
            (fun (acc : ρ × Option (List String)) s => record d fs fuel visited acc.2 s acc.1)
            (filled.record, some keys)
          return (r, if filled.seen.isSome then keys else none)

/-- Decodes a value into a record. A path of values follows each alias once at most, so that it is no
longer than the square of the number of tokens. -/
def recordOf {ρ : Type} (d : Document) (fs : Fields ρ) (n : Node) (r : ρ) : Decode ρ :=
  (·.1) <$> record d fs ((d.size + 2) * (d.size + 2)) [] none n r

end Decode

def decodeInto {ρ : Type} (fields : Document → Decode.Fields ρ) (bs : Bytes) (r : ρ) :
    Except Problem ρ :=
  match Document.ofBytes bs with
  | none => .error .malformed
  | some none => .ok r
  | some (some d) =>
    match (Decode.recordOf d (fields d) d.root r).run [] with
    | none => .error .malformed
    | some (r, []) => .ok r
    | some (_, notes) => .error (.mismatched notes)

end SolidityAst.Yaml
