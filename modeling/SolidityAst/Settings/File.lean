import SolidityAst.Settings.Basic
import SolidityAst.Yaml.Decode

/-!
Settings in a file.

A file gives sections by name, and a section gives some of its settings; the others stay what they
were. Null leaves a setting as it is, except that it empties a list and takes away a choice.
-/
namespace SolidityAst.Settings

open Yaml Yaml.Decode

def setField {α ρ : Type} (decode : Yaml.Node → Decode (Option α)) (set : ρ → α → ρ) :
    Option (Yaml.Node → ρ → Decode ρ) :=
  some fun n r => do
    match ← decode n with
    | some a => return set r a
    | none => return r

def setChoice {ρ : Type} (d : Document) (set : ρ → Option Bool → ρ) :
    Option (Yaml.Node → ρ → Decode ρ) :=
  some fun n r => do
    if ← isNull d n then return set r none
    match ← truth d n with
    | some b => return set r (some b)
    | none => return r

def solcFields (d : Document) : Fields SolcSettings where
  kind := "config.SolcConfig"
  field?
    | "path" => setField (text d) fun r v => { r with path := v }
    | "version" => setField (text d) fun r v => { r with version := v }
    | "auto_install" => setField (truth d) fun r v => { r with autoInstall := v }
    | "stop_after_parsing" => setChoice d fun r v => { r with stopAfterParsing := v }
    | "timeout" => setField (text d) fun r v => { r with timeout := v }
    | _ => none

def outputFields (d : Document) : Fields OutputSettings where
  kind := "config.OutputConfig"
  field?
    | "indent" => setField (text d) fun r v => { r with indent := v }
    | "suffix" => setField (text d) fun r v => { r with suffix := v }
    | "extension" => setField (text d) fun r v => { r with extension := v }
    | _ => none

def batchFields (d : Document) : Fields BatchSettings where
  kind := "config.BatchConfig"
  field?
    | "concurrency" => setField (integer d) fun r v => { r with concurrency := v }
    | "extensions" => setField (texts d) fun r v => { r with extensions := v }
    | "exclude" => setField (texts d) fun r v => { r with exclude := v }
    | _ => none

def logFields (d : Document) : Fields LogSettings where
  kind := "config.LogConfig"
  field?
    | "file" => setField (truth d) fun r v => { r with file := v }
    | "dir" => setField (text d) fun r v => { r with dir := v }
    | _ => none

def databaseFields (d : Document) : Fields DatabaseSettings where
  kind := "config.DatabaseConfig"
  field?
    | "enabled" => setField (truth d) fun r v => { r with enabled := v }
    | "host" => setField (text d) fun r v => { r with host := v }
    | "port" => setField (text d) fun r v => { r with port := v }
    | "user" => setField (text d) fun r v => { r with user := v }
    | "password" => setField (text d) fun r v => { r with password := v }
    | "name" => setField (text d) fun r v => { r with name := v }
    | _ => none

def setSection {α ρ : Type} (d : Document) (fields : Fields α) (get : ρ → α) (set : ρ → α → ρ) :
    Option (Yaml.Node → ρ → Decode ρ) :=
  some fun n r => do return set r (← recordOf d fields n (get r))

def sections (d : Document) : Fields Settings where
  kind := "config.AppConfig"
  field?
    | "solc" => setSection d (solcFields d) (·.solc) fun r v => { r with solc := v }
    | "output" => setSection d (outputFields d) (·.output) fun r v => { r with output := v }
    | "batch" => setSection d (batchFields d) (·.batch) fun r v => { r with batch := v }
    | "log" => setSection d (logFields d) (·.log) fun r v => { r with log := v }
    | "database" => setSection d (databaseFields d) (·.database) fun r v => { r with database := v }
    | _ => none

def decode (s : Settings) (content : Bytes) : Except Problem Settings :=
  decodeInto sections content s

end SolidityAst.Settings
