import SolidityAst.Failure
import SolidityAst.Ledger.Instant

/-!
What the ledger keeps of an export.
-/
namespace SolidityAst.Ledger

inductive Status where
  | ok
  | syntaxError
  | failed
  deriving DecidableEq, Repr

def Status.text : Status → String
  | ok => "ok"
  | syntaxError => "syntax_error"
  | failed => "failed"

def Status.ofFailure (f : Failure) : Status :=
  if f.syntaxError?.isSome then syntaxError else failed

/-- One export. Texts that are not known are empty. -/
structure Entry where
  sourcePath : String
  /-- The hash of the source; empty when it could not be read. -/
  sourceHash : String
  outputPath : String
  status : String
  error : String
  compiler : String
  /-- When the export was made; missing until the entry is recorded. -/
  exportedAt : Option Instant
  deriving DecidableEq, Repr

/-- What records entries; recording may fail. -/
abbrev Recorder := Entry → Except Failure Unit

end SolidityAst.Ledger
