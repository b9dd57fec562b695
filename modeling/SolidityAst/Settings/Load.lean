import SolidityAst.FileTree.Operations
import SolidityAst.Host.Environment
import SolidityAst.Settings.File
import SolidityAst.Text.Numeral

/-!
Where settings come from: a file over the defaults, and the environment over both.
-/
namespace SolidityAst.Settings

open Text

/-! ## Environment -/

/-- The value of a variable, unless it is empty. -/
def fromEnv (env : Environment) (name old : String) : String :=
  if env.get name = "" then old else env.get name

def integerFromEnv (env : Environment) (name : String) (old : Int) : Int :=
  ((Numeral.decimal (env.get name)).value?).getD old

def truthFromEnv (env : Environment) (name : String) (old : Bool) : Bool :=
  (truth? (trim (env.get name))).getD old

def variableNames : List String :=
  ["SOLAST_SOLC_PATH", "SOLAST_SOLC_VERSION", "SOLAST_SOLC_AUTO_INSTALL", "SOLAST_SOLC_TIMEOUT",
    "SOLAST_CONCURRENCY", "SOLAST_LOG_FILE", "SOLAST_DB_ENABLED", "SOLAST_DB_HOST", "SOLAST_DB_PORT",
    "SOLAST_DB_USER", "SOLAST_DB_PASSWORD", "SOLAST_DB_NAME"]

def withEnvironment (s : Settings) (env : Environment) : Settings :=
  let text := fromEnv env
  let truth := truthFromEnv env
  { s with
    solc := { s.solc with
      path := text "SOLAST_SOLC_PATH" s.solc.path
      version := text "SOLAST_SOLC_VERSION" s.solc.version
      autoInstall := truth "SOLAST_SOLC_AUTO_INSTALL" s.solc.autoInstall
      timeout := text "SOLAST_SOLC_TIMEOUT" s.solc.timeout }
    batch := { s.batch with
      concurrency := integerFromEnv env "SOLAST_CONCURRENCY" s.batch.concurrency }
    log := { s.log with file := truth "SOLAST_LOG_FILE" s.log.file }
    database := {
      enabled := truth "SOLAST_DB_ENABLED" s.database.enabled
      host := text "SOLAST_DB_HOST" s.database.host
      port := text "SOLAST_DB_PORT" s.database.port
      user := text "SOLAST_DB_USER" s.database.user
      password := text "SOLAST_DB_PASSWORD" s.database.password
      name := text "SOLAST_DB_NAME" s.database.name } }

/-! ## Files -/

def usualPlaces : List String := ["config/settings.yaml", "settings.yaml", "src/config/settings.yaml"]

/-- The file to read: the one that is named, or the first that is there. -/
def choose? (t : FileTree) (cwd : Place) (path : String) : Option String :=
  if path ≠ "" then some path else usualPlaces.find? (t.isThere cwd)

def readFile (t : FileTree) (cwd : Place) (path : String) : Except Failure Settings :=
  match t.read cwd path with
  | .error e => .error (.during "failed to read configuration file" (.base (.file e)))
  | .ok content =>
    match default.decode content with
    | .error p =>
      .error (.during s!"failed to parse configuration file {path}" (.told p.message))
    | .ok s => .ok { s with source := path }

/-- The settings of the file, or the defaults when there is no file. -/
def fromFile (t : FileTree) (cwd : Place) (path : String) : Except Failure Settings :=
  match choose? t cwd path with
  | none => .ok default
  | some path => readFile t cwd path

/-- The settings of the file and the environment, if they are valid. -/
def effective (file : Settings) (env : Environment) : Except Failure Settings :=
  let s := file.withEnvironment env
  s.validate.map fun _ => s

def load (t : FileTree) (cwd : Place) (env : Environment) (path : String) : Except Failure Settings :=
  match fromFile t cwd path with
  | .error f => .error f
  | .ok s => effective s env

end SolidityAst.Settings
