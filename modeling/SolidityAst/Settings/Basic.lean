import SolidityAst.Failure
import SolidityAst.Text.Duration

/-!
The settings of the program.
-/
namespace SolidityAst

open Text

structure SolcSettings where
  path : String
  version : String
  autoInstall : Bool
  /-- Whether the compiler is to stop once a source is parsed; it is unless this is false. -/
  stopAfterParsing : Option Bool
  /-- How long a compiler may run; without limit when empty. -/
  timeout : String
  deriving DecidableEq, Repr

structure OutputSettings where
  indent : String
  suffix : String
  extension : String
  deriving DecidableEq, Repr

structure BatchSettings where
  concurrency : Int
  extensions : List String
  exclude : List String
  deriving DecidableEq, Repr

structure LogSettings where
  file : Bool
  dir : String
  deriving DecidableEq, Repr

structure DatabaseSettings where
  enabled : Bool
  host : String
  port : String
  user : String
  password : String
  name : String
  deriving DecidableEq, Repr

structure Settings where
  solc : SolcSettings
  output : OutputSettings
  batch : BatchSettings
  log : LogSettings
  database : DatabaseSettings
  /-- The file they come from; empty when there is none. -/
  source : String
  deriving DecidableEq, Repr

namespace Settings

def default : Settings where
  solc := ⟨"", "", false, some true, "60s"⟩
  output := ⟨"  ", "_ast.json", ".sol"⟩
  batch := ⟨4, [".sol"], []⟩
  log := ⟨false, "logs"⟩
  database := ⟨false, "127.0.0.1", "3306", "root", "", "solast"⟩
  source := ""

/-- Whether the compiler is to stop once a source is parsed. -/
def stopAfterParsing (s : Settings) : Bool := s.solc.stopAfterParsing.getD true

/-- How long a compiler may run; zero when there is no limit. -/
def timeout (s : Settings) : Except Failure Duration :=
  if s.solc.timeout = "" then .ok ⟨0⟩
  else
    match Duration.parse s.solc.timeout with
    | .ok d => .ok d
    | .error e => .error (.during s!"invalid solc.timeout {quoted s.solc.timeout}" (.told e))

def validate (s : Settings) : Except Failure Unit :=
  if s.batch.concurrency ≤ 0 then
    .error (.told s!"batch.concurrency must be positive, got {s.batch.concurrency}")
  else if s.output.suffix = "" then .error (.told "output.suffix must not be empty")
  else
    match s.timeout with
    | .error f => .error f
    | .ok _ =>
      if s.database.enabled && s.database.name = "" then
        .error (.told "database.name is required when the ledger is enabled")
      else .ok ()

/-- The address of the database server, with or without the name of the database. -/
def dataSource (s : Settings) (named : Bool) : String :=
  let d := s.database
  d.user ++ ":" ++ d.password ++ "@tcp(" ++ d.host ++ ":" ++ d.port ++ ")/"
    ++ (if named then d.name else "") ++ "?parseTime=true&charset=utf8mb4"

end Settings

end SolidityAst
