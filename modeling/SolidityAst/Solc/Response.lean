import SolidityAst.Failure
import SolidityAst.Json.Reader
import SolidityAst.Text.Numeral
import SolidityAst.Text.Utf8

/-!
The compiler's answer.

The answer is the first JSON object of what the compiler writes; text before and after it is ignored.
Of the object only the errors and the sources are read. Keys are matched without regard to case. A
key may come again: later fields replace earlier ones, later sources are added, and a later list of
errors is read over the earlier one, entry by entry. The tree of a source is kept as its bytes.
-/
namespace SolidityAst.Solc

open Json Text

structure ErrorLocation where
  file : String
  start : Int
  finish : Int
  deriving DecidableEq, Repr

structure ErrorEntry where
  component : String
  errorCode : String
  formattedMessage : String
  message : String
  severity : String
  kind : String
  location : Option ErrorLocation
  deriving DecidableEq, Repr

def ErrorEntry.blank : ErrorEntry := ⟨"", "", "", "", "", "", none⟩

/-- Whether the entry keeps the source from being used; warnings do not. -/
def ErrorEntry.isError (e : ErrorEntry) : Bool := e.severity.toLower = "error"

structure SourceEntry where
  id : Int
  ast : Option Bytes
  deriving DecidableEq, Repr

def SourceEntry.blank : SourceEntry := ⟨0, none⟩

/-- A decoded answer; the sources are in increasing order of names. -/
structure Response where
  errors : List ErrorEntry
  sources : List (String × SourceEntry)
  deriving DecidableEq, Repr

/-- What is wrong with an answer. -/
inductive Defect where
  | malformed
  /-- The value of a field, which is told by the names on the way to it, is of the wrong kind. -/
  | mismatch (found : String) (field : List String) (expected : String)
  deriving DecidableEq, Repr

namespace Defect

def message : Defect → String
  | malformed => "malformed JSON"
  | mismatch found field expected =>
    "cannot read " ++ found ++ " as " ++ expected ++ " in field " ++ ".".intercalate field

/-- The defect as it is seen from a record with the defective value in the field `name`. -/
def under (name : String) : Defect → Defect
  | malformed => malformed
  | mismatch found field expected => mismatch found (name :: field) expected

end Defect

namespace Response

/-- Two keys are the same when they differ in case only. -/
def foldKey (key : String) : String :=
  String.ofList <| key.toList.map fun c =>
    if 'a' ≤ c && c ≤ 'z' then Char.ofNat (c.toNat - 32)
    else if c.toNat = 0x17F then 'S'
    else if c.toNat = 0x212A then 'K'
    else c

def isKey (key name : String) : Bool := foldKey key = foldKey name

def chars (raw : List Rune) : List Char := raw.map Rune.toChar

/-- The members of an object with their texts; nothing for any other value. -/
def members? (raw : List Rune) : Option (List (String × List Rune)) :=
  match chars raw with
  | '{' :: rest =>
    (readObject (readSpan rest.length maxDepth) rest.length rest).map fun (ms, _) =>
      ms.map fun (key, span) => (key, part raw span)
  | _ => none

/-- The texts of the items of an array; nothing for any other value. -/
def items? (raw : List Rune) : Option (List (List Rune)) :=
  match chars raw with
  | '[' :: rest =>
    (readArray (readSpan rest.length maxDepth) rest.length rest).map fun (spans, _) => spans.map (part raw)
  | _ => none

/-- The word for the kind of a value. -/
def kind (raw : List Rune) : String :=
  match chars raw with
  | '"' :: _ => "string"
  | '[' :: _ => "array"
  | '{' :: _ => "object"
  | 't' :: _ | 'f' :: _ => "bool"
  | _ => "number"

def mismatch (raw : List Rune) (expected : String) : Defect := .mismatch (kind raw) [] expected

def inField {α : Type} (name : String) (read : Except Defect α) : Except Defect α :=
  read.mapError (·.under name)

/-- Whether a value is null, which leaves a field as it is. -/
def isNull (raw : List Rune) : Bool := chars raw == "null".toList

def stringOver (old : String) (raw : List Rune) : Except Defect String :=
  if isNull raw then .ok old
  else
    match chars raw with
    | '"' :: rest =>
      match readString rest with
      | some (s, _) => .ok s
      | none => .error .malformed
    | _ => .error (mismatch raw "string")

/-- Reads an integer over an old one. A number with a fraction or an exponent is no integer. -/
def intOver (old : Int) (raw : List Rune) : Except Defect Int :=
  if isNull raw then .ok old
  else
    match chars raw with
    | [] => .error .malformed
    | c :: cs =>
      if c = '-' || isDigit c then
        match (Numeral.signedIn 10 (c :: cs)).value? with
        | some n => .ok n
        | none => .error (.mismatch ("number " ++ String.ofList (c :: cs)) [] "int")
      else .error (mismatch raw "int")

def readFields {α : Type} (field : α → String → List Rune → Except Defect α) (old : α)
    (raw : List Rune) : Except Defect α :=
  if isNull raw then .ok old
  else
    match members? raw with
    | some ms => ms.foldlM (fun a m => field a m.1 m.2) old
    | none => .error (mismatch raw "object")

def locationField (l : ErrorLocation) (key : String) (raw : List Rune) : Except Defect ErrorLocation :=
  if isKey key "file" then (inField "file" (stringOver l.file raw)).map ({ l with file := · })
  else if isKey key "start" then (inField "start" (intOver l.start raw)).map ({ l with start := · })
  else if isKey key "end" then (inField "end" (intOver l.finish raw)).map ({ l with finish := · })
  else .ok l

def errorField (e : ErrorEntry) (key : String) (raw : List Rune) : Except Defect ErrorEntry :=
  if isKey key "component" then
    (inField "component" (stringOver e.component raw)).map ({ e with component := · })
  else if isKey key "errorCode" then
    (inField "errorCode" (stringOver e.errorCode raw)).map ({ e with errorCode := · })
  else if isKey key "formattedMessage" then
    (inField "formattedMessage" (stringOver e.formattedMessage raw)).map ({ e with formattedMessage := · })
  else if isKey key "message" then
    (inField "message" (stringOver e.message raw)).map ({ e with message := · })
  else if isKey key "severity" then
    (inField "severity" (stringOver e.severity raw)).map ({ e with severity := · })
  else if isKey key "type" then (inField "type" (stringOver e.kind raw)).map ({ e with kind := · })
  else if isKey key "sourceLocation" then
    if isNull raw then .ok { e with location := none }
    else
      (inField "sourceLocation" (readFields locationField (e.location.getD ⟨"", 0, 0⟩) raw)).map
        ({ e with location := some · })
  else .ok e

def sourceField (s : SourceEntry) (key : String) (raw : List Rune) : Except Defect SourceEntry :=
  if isKey key "id" then (inField "id" (intOver s.id raw)).map ({ s with id := · })
  else if isKey key "ast" then .ok { s with ast := some (Utf8.encodeRunes raw) }
  else .ok s

/-- Error entries as they are read: those of the list, and behind them old ones that a longer list
will be read over. -/
structure ErrorSlots where
  current : List ErrorEntry
  old : List ErrorEntry

/-- Reads items over slots, one after another; a slot that was never used is blank. -/
def overSlots : (slots : List ErrorEntry) → List (List Rune) → Except Defect ErrorSlots
  | slots, [] => .ok ⟨[], slots⟩
  | slots, raw :: raws => do
    let e ← readFields errorField (slots.headD .blank) raw
    let rest ← overSlots slots.tail raws
    return ⟨e :: rest.current, rest.old⟩

/-- The answer while it is read. -/
structure Partial where
  errors : ErrorSlots
  sources : List (String × SourceEntry)

def errorsOver (slots : ErrorSlots) (raw : List Rune) : Except Defect ErrorSlots :=
  if isNull raw then .ok ⟨[], []⟩
  else
    match items? raw with
    | none => .error (mismatch raw "array")
    | some [] => .ok ⟨[], []⟩
    | some items => overSlots (slots.current ++ slots.old) items

def sourcesOver (sources : List (String × SourceEntry)) (raw : List Rune) :
    Except Defect (List (String × SourceEntry)) :=
  if isNull raw then .ok []
  else
    readFields (fun sources name raw =>
      (readFields sourceField .blank raw).map fun s => Assoc.insert name s sources) sources raw

def field (p : Partial) (key : String) (raw : List Rune) : Except Defect Partial :=
  if isKey key "errors" then
    (inField "errors" (errorsOver p.errors raw)).map ({ p with errors := · })
  else if isKey key "sources" then
    (inField "sources" (sourcesOver p.sources raw)).map ({ p with sources := · })
  else .ok p

/-- Decodes the object with which a text starts. -/
def decode (text : List Rune) : Except Defect Response := do
  match readRaw text.length maxDepth (chars text) with
  | none => .error .malformed
  | some (value, _) =>
    let p ← readFields field ⟨⟨[], []⟩, []⟩ (text.take value.length)
    return ⟨p.errors.current, p.sources⟩

/-- At most `n` bytes, with dots where more follow. -/
def truncate (n : Nat) (bs : Bytes) : Bytes :=
  if bs.length ≤ n then bs else bs.take n ++ Utf8.encode "..."

def parse (raw : Bytes) : Except Failure Response :=
  match raw.dropWhile (· != 0x7B) with
  | [] =>
    .error (.told ("no JSON object in solc output: " ++ Quoted.bytes (truncate 200 raw)))
  | rest =>
    match decode (Utf8.decode rest) with
    | .ok r => .ok r
    | .error defect => .error (.during "decode solc output" (.told defect.message))

end Response

end SolidityAst.Solc
