import SolidityAst.Batch.Discovery
import SolidityAst.Batch.Summary
import SolidityAst.Console.Bar
import SolidityAst.Console.Event
import SolidityAst.Console.Message

/-!
Exporting all sources of a directory.

Every source that is found is exported once, unless the work was cancelled before its turn came. A file
that fails does not stop the others: failures are collected, and the batch itself fails only when the
sources cannot be found or when it was interrupted.
-/
namespace SolidityAst.Batch

open Console Text

structure Runner where
  concurrency : Int
  extensions : List String
  exclude : List String
  /-- Whether the progress bar is drawn; then confirmations go to the log file only. -/
  live : Bool
  palette : Palette
  /-- The time that the batch is taken to last. -/
  elapsed : Duration

/-- A runner with the given number of workers, or four unless it is positive. -/
def Runner.new (concurrency : Int) : Runner :=
  ⟨if concurrency ≤ 0 then 4 else concurrency, [".sol"], [], false, .plain, ⟨0⟩⟩

/-- When the work is cancelled: before it starts, or once the export of some path is done. -/
structure Cancellation where
  before : Bool
  after : String → Bool

def Cancellation.never : Cancellation := ⟨false, fun _ => false⟩

/-- What exporting one file leaves: the path of its artifact or a failure, the state of the exporter,
and what was said. -/
structure Exported (σ : Type) where
  outcome : Except Failure String
  state : σ
  events : List Event

abbrev Exporting (σ : Type) := σ → (file : String) → Exported σ

structure Course (σ : Type) where
  state : σ
  cancelled : Bool
  /-- The number of files whose turn came after the work was cancelled. -/
  skipped : Nat
  /-- The first failure of a turn. -/
  failure : Option Failure
  summary : Summary
  bar : Bar
  events : List Event

/-- What a batch left. There is no summary when the sources could not be found. -/
structure Finished (σ : Type) where
  state : σ
  summary : Option Summary
  failure : Option Failure
  events : List Event

namespace Course

variable {σ : Type}

def exported (c : Course σ) (done : Exported σ) : Course σ :=
  { c with state := done.state, events := c.events ++ done.events }

def recorded (c : Course σ) (file : String) (outcome : Except Failure String) : Course σ :=
  { c with summary := c.summary.record file outcome }

def skip (c : Course σ) : Course σ :=
  { c with skipped := c.skipped + 1, failure := c.failure <|> some (.base .canceled) }

end Course

namespace Runner

variable {σ : Type}

def announce (r : Runner) (bar : Bar) (file : String) : Except Failure String → List Event
  | .error f =>
    [.say .fileInfo "failed %s: %v" [.text file, .text f.message],
      .err (bar.message r.palette r.elapsed
        (r.palette.red ++ "[FAIL]" ++ r.palette.reset ++ s!" {file}: {firstLine f.message}"))]
  | .ok output =>
    if r.live then [.say .fileInfo "AST for %s has been saved to: %s" [.text file, .text output]]
    else [.out (line (saved file output))]

def announced (r : Runner) (c : Course σ) (file : String) (outcome : Except Failure String) :
    Course σ :=
  { c with events := c.events ++ r.announce c.bar file outcome }

def counted (r : Runner) (c : Course σ) (outcome : Except Failure String) : Course σ :=
  let bar := c.bar.increment (!outcome.isOk)
  { c with bar := bar, events := c.events ++ [.err (bar.redraw r.palette r.elapsed)] }

def work (r : Runner) (exporting : Exporting σ) (cancellation : Cancellation) (c : Course σ)
    (file : String) : Course σ :=
  if c.cancelled then c.skip
  else
    let done := exporting c.state file
    let c := (c.exported done).recorded file done.outcome
    let c := r.counted (r.announced c file done.outcome) done.outcome
    { c with cancelled := cancellation.after file }

def beginning (r : Runner) (cancelled : Bool) (state : σ) (files : List String) : Course σ :=
  let start : Event :=
    .say .info "Exporting %d files with concurrency %d" [.integer files.length, .integer r.concurrency]
  ⟨state, cancelled, 0, none, .start files.length, Bar.new "Exporting" files.length r.live, [start]⟩

def runFiles (r : Runner) (exporting : Exporting σ) (cancellation : Cancellation) (state : σ)
    (files : List String) : Course σ :=
  files.foldl (r.work exporting cancellation) (r.beginning cancellation.before state files)

def conclude (r : Runner) (c : Course σ) : Finished σ :=
  ⟨c.state, some { c.summary.sorted with duration := r.elapsed },
    c.failure.map (.during "batch interrupted"), c.events ++ [.err (c.bar.finish r.palette r.elapsed)]⟩

def nothingFound (state : σ) (input : String) : Finished σ :=
  ⟨state, some (.start 0), none, [.say .warn "no source files found under %s" [.text input]]⟩

def run (r : Runner) (exporting : Option (Exporting σ)) (cancellation : Cancellation) (state : σ)
    (t : FileTree) (cwd : Place) (input : String) : Finished σ :=
  match exporting with
  | none => ⟨state, none, some (.told "batch: exporter is nil"), []⟩
  | some exporting =>
    match discover t cwd input r.extensions r.exclude with
    | .error f => ⟨state, none, some f, []⟩
    | .ok [] => nothingFound state input
    | .ok files => r.conclude (r.runFiles exporting cancellation state files)

/-- The summary as it is shown: the counts, and the files that failed. -/
def report (r : Runner) (s : Summary) : List Event :=
  .out (stats r.palette s.total s.succeeded s.failed.length s.duration)
    :: if s.failed.isEmpty then []
      else
        .err (line "Failed to process the following files:")
          :: s.failed.map fun f => .err (errorLine r.palette f.path f.failure.message)

def close (r : Runner) (f : Finished σ) : Finished σ :=
  match f.summary with
  | none => f
  | some s =>
    { f with failure := f.failure <|> s.failure?, events := f.events ++ r.report s }

/-- Exports the sources below `input`, shows the summary, and fails if a file failed. -/
def execute (r : Runner) (exporting : Option (Exporting σ)) (cancellation : Cancellation) (state : σ)
    (t : FileTree) (cwd : Place) (input : String) : Finished σ :=
  r.close (r.run exporting cancellation state t cwd input)

end Runner

end SolidityAst.Batch
