import SolidityAst.Cli.Arguments
import SolidityAst.Settings.EnvFile
import SolidityAst.Settings.Load

/-!
The settings of a run: those of the file and the environment, and the flags over them.
-/
namespace SolidityAst.Cli

open Console

/-- The environment with the variables of the file `.env`; one that is missing says nothing. -/
def loadEnvFile (t : FileTree) (cwd : Place) (env : Environment) : Environment × List Event :=
  let warning (text : String) : Environment × List Event :=
    (env, [.say .warn "Failed to load .env: %v" [.text text]])
  match t.read cwd ".env" with
  | .error e => if e.errno = .noEntry then (env, []) else warning e.message
  | .ok content =>
    match Settings.EnvFile.parse content with
    | .ok vars => (Settings.EnvFile.addTo env vars, [])
    | .error text => warning text

def Arguments.override (a : Arguments) (s : Settings) : Settings :=
  { s with
    solc := { s.solc with
      path := if a.solcPath = "" then s.solc.path else a.solcPath
      version := if a.solcVersion = "" then s.solc.version else a.solcVersion }
    batch := { s.batch with
      concurrency := if 0 < a.concurrency then a.concurrency else s.batch.concurrency } }

structure Configuration where
  env : Environment
  outcome : Except Failure Settings
  events : List Event

def configure (t : FileTree) (cwd : Place) (env : Environment) (a : Arguments) : Configuration :=
  let (env, events) := loadEnvFile t cwd env
  match Settings.load t cwd env a.configPath with
  | .error f => ⟨env, .error (.during "failed to load config" f), events⟩
  | .ok s => ⟨env, .ok (a.override s), events⟩

end SolidityAst.Cli
