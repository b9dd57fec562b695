import SolidityAst.Ast.Annotate
import SolidityAst.Console.Event
import SolidityAst.Path
import SolidityAst.Solc.Compile
import SolidityAst.Solc.Version

/-!
The tree of a source.

A compiler that may not know how to stop after parsing is asked once more, without the wish, when it
refuses the request. Errors with a place in the source make a rejection; an error without one is about
the compiler and not about the source.
-/
namespace SolidityAst.Ast

open Solc Source Console

/-- The tree of a source with locations at its nodes, the name it has in the request, and the compiler
it comes from. -/
structure Tree where
  root : Json
  sourceName : String
  compiler : Binary

/-- What parsing a source did: the requests that were sent, what was logged, and the outcome. -/
structure Parsed where
  requests : List Request
  events : List Event
  outcome : Except Failure Tree

/-- Whether the compiler refuses the request itself rather than the source. -/
def refusesRequest (r : Response) : Bool :=
  r.errors.any fun e => e.isError && e.location.isNone && e.kind = "JSONError"

def diagnostic (index : LineIndex) (e : ErrorEntry) (l : ErrorLocation) : Diagnostic :=
  let p := index.position l.start
  ⟨e.severity, e.kind, e.errorCode, e.message, e.formattedMessage, p.line, p.column⟩

inductive Verdict where
  /-- There is none. -/
  | accepted
  /-- All have a place in the source. -/
  | rejected (diagnostics : List Diagnostic)
  /-- This is the first without a place. -/
  | failed (e : ErrorEntry)

/-- Judges the errors in their order; entries that are no errors are only logged. -/
def judge (path : String) (index : LineIndex) :
    (found : List Diagnostic) → List ErrorEntry → List Event × Verdict
  | [], [] => ([], .accepted)
  | found, [] => ([], .rejected found.reverse)
  | found, e :: es =>
    if e.isError then
      match e.location with
      | none => ([], .failed e)
      | some l => judge path index (diagnostic index e l :: found) es
    else
      let (events, verdict) := judge path index found es
      (.say .debug "%s: %s: %s" [.text path, .text e.kind, .text e.message] :: events, verdict)

/-- The outcome of an answer: a rejection, a failure, or the annotated tree of the source. -/
def conclude (path : String) (source : Bytes) (binary : Binary) (r : Response) :
    List Event × Except Failure Tree :=
  let index := LineIndex.ofSource source
  let (events, verdict) := judge path index [] r.errors
  let outcome : Except Failure Tree :=
    match verdict with
    | .failed e => .error (.told s!"solc {binary.text}: {e.kind}: {e.message}")
    | .rejected ds => .error (.base (.rejected ⟨path, some ds⟩))
    | .accepted =>
      let name := Path.base path
      match (Assoc.find? name r.sources).bind SourceEntry.ast with
      | none => .error (.told s!"solc {binary.text} returned no AST for {path}")
      | some text =>
        match Json.read? (Text.Utf8.chars text) with
        | none => .error (.during s!"decode AST of {path}" (.told "malformed JSON"))
        | some (root, _) => .ok ⟨annotate index root, name, binary⟩
  (events, outcome)

def ask (runner : Option Runner) (binary : Binary) (path : String) (source : Bytes) (stop : Bool) :
    Except Failure Response :=
  match compile runner binary ⟨Path.base path, source, stop⟩ with
  | .ok r => .ok r
  | .error e => .error (.during s!"run solc on {path}" e)

/-- The requests that leave when these are put. -/
def sent (runner : Option Runner) (requests : List Request) : List Request :=
  if runner.isSome then requests else []

def parse (chosen : Except Failure Binary) (runner : Option Runner) (stopAfterParsing : Bool)
    (path : String) (source : Bytes) : Parsed :=
  match chosen with
  | .error e => ⟨[], [], .error (.during s!"resolve solc for {path}" e)⟩
  | .ok binary =>
    let stop := stopAfterParsing && Version.supportsStopAfter binary.version
    let request : Bool → Request := fun stop => ⟨Path.base path, source, stop⟩
    let chose : Event := .say .debug "parsing %s with solc %s" [.text path, .text binary.text]
    match ask runner binary path source stop with
    | .error e => ⟨sent runner [request stop], [chose], .error e⟩
    | .ok r =>
      if stop && refusesRequest r then
        let again : Event :=
          .say .debug "solc %s rejected stopAfter, retrying %s with full analysis"
            [.text binary.text, .text path]
        match ask runner binary path source false with
        | .error e => ⟨sent runner [request true, request false], [chose, again], .error e⟩
        | .ok r =>
          let (events, outcome) := conclude path source binary r
          ⟨sent runner [request true, request false], chose :: again :: events, outcome⟩
      else
        let (events, outcome) := conclude path source binary r
        ⟨sent runner [request stop], chose :: events, outcome⟩

end SolidityAst.Ast
