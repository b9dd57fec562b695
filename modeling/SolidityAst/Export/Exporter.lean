import SolidityAst.Ast.Parse
import SolidityAst.Console.Message
import SolidityAst.Export.Artifact
import SolidityAst.Export.OutputPath
import SolidityAst.Hash.Keccak
import SolidityAst.Ledger.Entry

/-!
Exporting one file.

The source is read, parsed, and its tree is written where the naming puts it. Nothing is written when a
step fails. Every export, also one that failed, makes one ledger entry; a recorder that fails changes
nothing but the log.
-/
namespace SolidityAst.Export

open Console Text

abbrev Parser := String → Bytes → Ast.Parsed

structure Exporter where
  parser : Option Parser
  recorder : Option Ledger.Recorder
  naming : Naming
  indent : String

/-- An exporter with the usual naming and indentation that records nothing. -/
def Exporter.new (parser : Option Parser) : Exporter :=
  ⟨parser, some fun _ => .ok (), .default, "  "⟩

/-- Where an export takes place: the current directory, and the mark of new temporary files. -/
structure Site where
  cwd : Place
  tag : String

def Site.cwdPath (s : Site) : String := "/" ++ "/".intercalate s.cwd

structure Result where
  input : String
  output : String
  sourceHash : String
  compiler : String
  deriving DecidableEq, Repr

structure Progress where
  result : Except Failure Result
  tree : FileTree
  /-- The hash of the source, once it is read. -/
  sourceHash : String
  /-- The compiler, once the source is parsed. -/
  compiler : String
  requests : List Solc.Request
  events : List Event

structure Outcome where
  result : Except Failure Result
  tree : FileTree
  /-- The ledger entry, if there is a recorder. -/
  entries : List Ledger.Entry
  requests : List Solc.Request
  events : List Event

/-- A source that can be parsed: a file of valid UTF-8. -/
def readSource (t : FileTree) (cwd : Place) (file : String) : Except Failure Bytes :=
  match t.read cwd file with
  | .error e => .error (.during "read source" (.base (.file e)))
  | .ok source =>
    if Utf8.valid source then .ok source
    else .error (.told s!"read source {file}: not valid UTF-8")

def Exporter.place (e : Exporter) (site : Site) (t : FileTree) (file input output : String)
    (parsed : Ast.Tree) : Except Failure String × FileTree :=
  match outputPath site.cwdPath e.naming file input output with
  | .error f => (.error f, t)
  | .ok target =>
    match tryEncode e.indent parsed.root with
    | .error f => (.error (.during s!"encode AST of {file}" f), t)
    | .ok content =>
      match placeFile t site.cwd site.tag target content with
      | (.error f, t) => (.error f, t)
      | (.ok (), t) => (.ok target, t)

def Exporter.attempt (e : Exporter) (site : Site) (t : FileTree) (file input output : String) :
    Progress :=
  match e.parser with
  | none => ⟨.error (.told "exporter: parser is nil"), t, "", "", [], []⟩
  | some parser =>
    match readSource t site.cwd file with
    | .error f => ⟨.error f, t, "", "", [], []⟩
    | .ok source =>
      let hash := Hash.Keccak.hashText source
      let parsed := parser file source
      match parsed.outcome with
      | .error f => ⟨.error f, t, hash, "", parsed.requests, parsed.events⟩
      | .ok tree =>
        let compiler := tree.compiler.text
        match e.place site t file input output tree with
        | (.error f, t) => ⟨.error f, t, hash, compiler, parsed.requests, parsed.events⟩
        | (.ok target, t) =>
          let done : Event := .say .debug "%s -> %s (%s)" [.text file, .text target, .text hash]
          ⟨.ok ⟨file, target, hash, compiler⟩, t, hash, compiler, parsed.requests,
            parsed.events ++ [done]⟩

def Progress.entry (p : Progress) (sourcePath : String) : Ledger.Entry :=
  match p.result with
  | .ok r => ⟨sourcePath, p.sourceHash, r.output, Ledger.Status.ok.text, "", p.compiler, none⟩
  | .error f =>
    ⟨sourcePath, p.sourceHash, "", (Ledger.Status.ofFailure f).text, f.message, p.compiler, none⟩

def Exporter.exportFile (e : Exporter) (site : Site) (t : FileTree) (file input output : String) :
    Outcome :=
  let p := e.attempt site t file input output
  match e.recorder with
  | none => ⟨p.result, p.tree, [], p.requests, p.events⟩
  | some record =>
    let entry := p.entry (Path.absolute site.cwdPath file)
    let warning : List Event :=
      match record entry with
      | .ok () => []
      | .error f => [.say .warn "%v" [.text f.message]]
    ⟨p.result, p.tree, [entry], p.requests, p.events ++ warning⟩

def Outcome.confirmation (o : Outcome) (file : String) : List Event :=
  match o.result with
  | .ok r => [.out (line (saved file r.output))]
  | .error _ => []

end SolidityAst.Export
