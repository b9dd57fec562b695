import SolidityAst.Cli.Flags
import SolidityAst.Cli.Help
import SolidityAst.Console.Event
import SolidityAst.Failure
import SolidityAst.Text.Blank

/-!
What a command line asks for.

Reading a command line ends in one of three ways: with arguments that are valid, with a request for
help, or with a wrong usage. In the last two cases the help or usage text is shown.
-/
namespace SolidityAst.Cli

open Console Text

inductive Command where
  | single
  | batch
  | other (name : String)
  deriving DecidableEq, Repr

def Command.name : Command → String
  | single => "export"
  | batch => "batch"
  | other name => name

/-- The arguments of a command. Texts that were not given are empty. -/
structure Arguments where
  command : Command
  filePath : String
  inputDir : String
  outputDir : String
  configPath : String
  solcPath : String
  solcVersion : String
  concurrency : Int
  verbose : Bool
  logFile : Bool
  deriving DecidableEq, Repr

def Arguments.none (command : Command) : Arguments :=
  ⟨command, "", "", "", "", "", "", 0, false, false⟩

def Arguments.problem? (a : Arguments) : Option String :=
  match a.command with
  | .single =>
    if a.filePath = "" || a.inputDir = "" || a.outputDir = "" then
      some "file path, input directory and output folder must not be empty"
    else .none
  | .batch =>
    if a.inputDir = "" then some "-input is required"
    else if a.outputDir = "" then some "-output is required"
    else if a.concurrency < 0 then some "-concurrency must not be negative"
    else .none
  | .other name => some ("unknown command " ++ quoted name)

def Arguments.validate (a : Arguments) : Except Failure Unit :=
  match a.problem? with
  | some problem => .error (.usage problem)
  | .none => .ok ()

def commonFlags : List Flag :=
  [⟨"config", .text⟩, ⟨"solc", .text⟩, ⟨"solc-version", .text⟩, ⟨"v", .truth⟩, ⟨"log", .truth⟩]

def batchFlags : List Flag :=
  commonFlags ++ [⟨"input", .text⟩, ⟨"output", .text⟩, ⟨"concurrency", .integer⟩]

def Arguments.apply (a : Arguments) (s : Setting) : Arguments :=
  match s.name, s.value with
  | "config", .text v => { a with configPath := v }
  | "solc", .text v => { a with solcPath := v }
  | "solc-version", .text v => { a with solcVersion := v }
  | "v", .truth b => { a with verbose := b }
  | "log", .truth b => { a with logFile := b }
  | "input", .text v => { a with inputDir := v }
  | "output", .text v => { a with outputDir := v }
  | "concurrency", .integer n => { a with concurrency := n }
  | _, _ => a

def Arguments.applyAll (a : Arguments) (settings : List Setting) : Arguments :=
  settings.foldl Arguments.apply a

structure ReadArguments where
  events : List Event
  outcome : Except Failure Arguments

/-- Flags that cannot be read: the message, if there is one, and the help. -/
def refuse (help : String) : FlagError → ReadArguments
  | .help => ⟨[.err help], .error (.base .helpRequested)⟩
  | e => ⟨[.err (line e.message), .err help], .error (.usage e.message)⟩

def checked (help : String) (a : Arguments) : ReadArguments :=
  match a.validate with
  | .ok () => ⟨[], .ok a⟩
  | .error f => ⟨[.err help], .error f⟩

def readSingle (p : Palette) (arguments : List String) : ReadArguments :=
  match readMixed commonFlags arguments with
  | .error e => refuse (generalHelp p) e
  | .ok l =>
    match l.positionals with
    | [file, input, output] =>
      checked usage
        { (Arguments.none .single).applyAll l.settings with
          filePath := trim file, inputDir := trim input, outputDir := trim output }
    | ps =>
      let expected := "expected 3 arguments <filePath> <inputDir> <outputFolder>"
      ⟨[.err usage], .error (.usage s!"{expected}, got {ps.length}")⟩

def readBatch (p : Palette) (arguments : List String) : ReadArguments :=
  match readFlags batchFlags arguments with
  | .error e => refuse (batchHelp p) e
  | .ok l =>
    match l.positionals with
    | [] =>
      let a := (Arguments.none .batch).applyAll l.settings
      checked (batchHelp p) { a with inputDir := trim a.inputDir, outputDir := trim a.outputDir }
    | ps =>
      ⟨[.err (batchHelp p)], .error (.usage ("unexpected arguments [" ++ " ".intercalate ps ++ "]"))⟩

def readArguments (p : Palette) : List String → ReadArguments
  | "batch" :: rest => readBatch p rest
  | "help" :: _ => refuse (generalHelp p) .help
  | arguments => readSingle p arguments

end SolidityAst.Cli
