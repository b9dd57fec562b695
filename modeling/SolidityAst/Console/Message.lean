import SolidityAst.Console.Palette
import SolidityAst.Text.Duration
import SolidityAst.Text.Fields

/-!
The texts that a run shows.
-/
namespace SolidityAst.Console

open Text

def version : String := "v0.1.0"

def saved (input output : String) : String := s!"AST for {input} has been saved to: {output}"

def banner (p : Palette) (version : String) : String :=
  line (p.cyan ++ p.bold ++ "solast" ++ p.reset ++ p.gray ++ s!" {version} - Solidity AST exporter"
    ++ p.reset)

def errorLine (p : Palette) (path message : String) : String :=
  line (p.red ++ "[ERROR] " ++ p.reset ++ path ++ ": " ++ message)

def rule (p : Palette) : String := line (p.gray ++ repeated 50 "─" ++ p.reset)

/-- The summary of a batch; its duration is shown to the millisecond. -/
def stats (p : Palette) (total succeeded failed : Int) (duration : Duration) : String :=
  line "" ++ rule p
    ++ line s!"🏁 Export completed in {(duration.round 1000000).text}"
    ++ line s!"📊 Total: {total} | ✅ Success: {succeeded} | ❌ Failed: {failed}"
    ++ rule p

end SolidityAst.Console
