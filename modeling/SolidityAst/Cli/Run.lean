import SolidityAst.Batch.Run
import SolidityAst.Cli.Configuration
import SolidityAst.Cli.Init
import SolidityAst.Cli.Report
import SolidityAst.Console.Logger
import SolidityAst.Export.Exporter
import SolidityAst.Ledger.Connection
import SolidityAst.Solc.Execution
import SolidityAst.Solc.Installation

/-!
The whole program.

A run is a function of the command line, the files and the machine. It gives the exit status, what the
two streams show, and the files as they are left.
-/
namespace SolidityAst.Cli

open Console Text

structure Surroundings where
  machine : Host.Machine
  server : Ledger.Server
  /-- Whether standard output and standard error are terminals. -/
  outTerminal : Bool
  errTerminal : Bool
  /-- The time stamp of a log file. -/
  stamp : String
  /-- The mark of new temporary files. -/
  tag : String
  /-- The time that a batch is taken to last. -/
  elapsed : Duration

namespace Surroundings

def palette (s : Surroundings) : Palette := .of s.outTerminal (s.machine.env.get "NO_COLOR")

def cwd (s : Surroundings) : Place := s.machine.cwd

end Surroundings

/-- What the exports of a run leave to the next: the files, and what is known of the compilers. -/
structure Session where
  tree : FileTree
  toolchain : Solc.Toolchain

structure Job where
  machine : Host.Machine
  tag : String
  settings : Settings
  timeout : Duration
  recorder : Ledger.Recorder

namespace Job

def toolchain (j : Job) : Solc.Toolchain :=
  let s := j.settings.solc
  .new ⟨s.path, s.version, s.autoInstall⟩

def parser (j : Job) (t : FileTree) (chosen : Except Failure Solc.Binary) : Export.Parser :=
  Ast.parse chosen (some (Solc.execute j.machine t ⟨false, j.timeout.nanoseconds⟩))
    j.settings.stopAfterParsing

def exporter (j : Job) (t : FileTree) (chosen : Except Failure Solc.Binary) : Export.Exporter where
  parser := some (j.parser t chosen)
  recorder := some j.recorder
  naming := ⟨j.settings.output.extension, j.settings.output.suffix⟩
  indent := j.settings.output.indent

/-- Exports one file. A compiler is chosen only for a source that can be read. -/
def exportFile (j : Job) (s : Session) (file input output : String) : Export.Outcome × Session :=
  let site : Export.Site := ⟨j.machine.cwd, j.tag⟩
  match Export.readSource s.tree site.cwd file with
  | .error f =>
    let o := (j.exporter s.tree (.error f)).exportFile site s.tree file input output
    (o, ⟨o.tree, s.toolchain⟩)
  | .ok source =>
    let a := s.toolchain.resolve (.ofMachine j.machine false) s.tree source
    let o := (j.exporter a.tree a.outcome).exportFile site a.tree file input output
    ({ o with events := a.events ++ o.events }, ⟨o.tree, a.toolchain⟩)

def single (j : Job) (t : FileTree) (a : Arguments) : Done :=
  let (o, _) := j.exportFile ⟨t, j.toolchain⟩ a.filePath a.inputDir a.outputDir
  ⟨o.result.map fun _ => (), o.tree, o.events ++ o.confirmation a.filePath⟩

def runner (j : Job) (s : Surroundings) : Batch.Runner :=
  let b := j.settings.batch
  { Batch.Runner.new b.concurrency with
    extensions := if b.extensions.isEmpty then [j.settings.output.extension] else b.extensions
    exclude := b.exclude
    live := s.errTerminal
    palette := s.palette
    elapsed := s.elapsed }

def exporting (j : Job) (input output : String) : Batch.Exporting Session := fun st file =>
  let (o, st) := j.exportFile st file input output
  ⟨o.result.map (·.output), st, o.events⟩

def batch (j : Job) (s : Surroundings) (t : FileTree) (a : Arguments) : Done :=
  let r := j.runner s
  let banner : List Event := if r.live then [.err (Console.banner s.palette version)] else []
  let exporting := j.exporting a.inputDir a.outputDir
  let f := r.execute (some exporting) .never ⟨t, j.toolchain⟩ t s.cwd a.inputDir
  let outcome : Except Failure Unit :=
    match f.failure with
    | some e => .error e
    | none => .ok ()
  ⟨outcome, f.state.tree, banner ++ f.events⟩

def carryOut (j : Job) (s : Surroundings) (t : FileTree) (a : Arguments) : Done :=
  match a.command with
  | .batch => j.batch s t a
  | _ => j.single t a

end Job

/-- The recorder of a run. A ledger that cannot be opened is left out. -/
def openLedger (server : Ledger.Server) (d : DatabaseSettings) : Ledger.Recorder × List Event :=
  let nothing : Ledger.Recorder := fun _ => .ok ()
  if !d.enabled then (nothing, [])
  else
    match (server.database d).bind Ledger.recorder with
    | .error e => (nothing, [.say .warn "Export ledger disabled: %v" [.text e.message]])
    | .ok r => (r, [.say .debug "Recording exports in %s.ast_exports" [.text d.name]])

def openLog (s : Surroundings) (t : FileTree) (a : Arguments) (settings : Settings) :
    Logger × FileTree × List Event :=
  let log : Logger := ⟨a.verbose, none⟩
  if !(a.logFile || settings.log.file) then (log, t, [])
  else
    let opened := log.openFile t s.cwd settings.log.dir "solast" s.stamp
    match opened.outcome with
    | .ok path => (opened.logger, opened.tree, [.say .debug "Logging to %s" [.text path]])
    | .error e => (opened.logger, opened.tree, [.say .warn "Failed to init log file: %v" [.text e.message]])

def perform (s : Surroundings) (env : Environment) (settings : Settings) (t : FileTree)
    (a : Arguments) : Done :=
  let (log, t, opening) := openLog s t a settings
  let origin : List Event :=
    if settings.source = "" then [] else [.say .debug "Loaded config from %s" [.text settings.source]]
  let done : Done :=
    match settings.timeout with
    | .error f => ⟨.error f, t, []⟩
    | .ok timeout =>
      let (recorder, notices) := openLedger s.server settings.database
      let job : Job := ⟨{ s.machine with env := env }, s.tag, settings, timeout, recorder⟩
      let done := job.carryOut s t a
      { done with events := notices ++ done.events }
  let events := opening ++ origin ++ done.events
  ⟨done.outcome, log.keep done.tree events, events⟩

def execute (s : Surroundings) (t : FileTree) (a : Arguments) : Done :=
  let c := configure t s.cwd s.machine.env a
  match c.outcome with
  | .error f => ⟨.error f, t, c.events⟩
  | .ok settings =>
    let done := perform s c.env settings t a
    { done with events := c.events ++ done.events }

structure Ending where
  status : Nat
  stdout : String
  stderr : String
  tree : FileTree

/-- The end of a run: a failure is reported after all else. -/
def Done.ending (d : Done) (verbose : Bool) : Ending :=
  let (status, reported) :=
    match d.outcome with
    | .ok () => (0, "")
    | .error f => report f
  ⟨status, Console.stdout d.events, Console.stderr verbose d.events ++ reported, d.tree⟩

def run (s : Surroundings) (t : FileTree) : (arguments : List String) → Ending
  | "init" :: rest => (init s.palette t s.cwd rest).ending false
  | arguments =>
    let r := readArguments s.palette arguments
    match r.outcome with
    | .ok a => (execute s t a).ending a.verbose
    | .error f =>
      let outcome : Except Failure Unit := if f.cause = .helpRequested then .ok () else .error f
      Done.ending ⟨outcome, t, r.events⟩ false

end SolidityAst.Cli
