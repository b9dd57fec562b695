import SolidityAst.Host.Program
import SolidityAst.Solc.Compile
import SolidityAst.Text.Blank

/-!
Running a compiler as a program.
-/
namespace SolidityAst.Solc

open Text

/-- How long a compiler may run, and whether the work is cancelled already. -/
structure Patience where
  cancelled : Bool
  /-- In nanoseconds; there is no limit unless it is positive. -/
  timeout : Int

def Patience.exceeded (p : Patience) (milliseconds : Nat) : Bool :=
  decide (0 < p.timeout) && decide (p.timeout ≤ milliseconds * 1000000)

/-- Gives a request to the compiler at the binary's path and takes what it writes. A status other than
zero is a failure only when nothing was written. -/
def execute (m : Host.Machine) (t : FileTree) (patience : Patience) : Runner := fun binary request =>
  let stopped (c : Cause) : Except Failure Bytes :=
    .error (.during s!"solc {binary.text}" (.base c))
  let failed (e : Failure) (stderr : Bytes) : Except Failure Bytes :=
    .error (.within "solc execution failed: " e (", stderr: " ++ trim (Utf8.text stderr)))
  if patience.cancelled then stopped .canceled
  else
    match (m.run t false binary.path ["--standard-json"] (Utf8.encode request.text)).1 with
    | .error e => failed e []
    | .ok c =>
      if patience.exceeded c.milliseconds then stopped .deadlineExceeded
      else if c.status ≠ 0 && c.stdout.isEmpty then failed (.base (.exitStatus c.status)) c.stderr
      else .ok c.stdout

end SolidityAst.Solc
