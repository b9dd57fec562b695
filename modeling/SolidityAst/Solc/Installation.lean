import SolidityAst.Host.Program
import SolidityAst.Solc.Toolchain
import SolidityAst.Text.Blank

/-!
Installing compilers with `solc-select`, and the toolchain of a machine.
-/
namespace SolidityAst.Solc

open Console Text

/-- Installs a version by running `solc-select install`. -/
def solcSelect (m : Host.Machine) (cancelled : Bool) : Installer := fun version t =>
  match m.find t "solc-select" with
  | .error e => (.error (.during s!"solc-select not available to install solc {version}" e), t, [])
  | .ok _ =>
    let event : Event := .say .info "Installing solc %s with solc-select..." [.text version]
    let failed (e : Failure) (written : Bytes) : Except Failure Unit :=
      .error (.within s!"solc-select install {version} failed: " e
        (": " ++ trim (Utf8.text written)))
    match m.run t cancelled "solc-select" ["install", version] [] with
    | (.error e, t) => (failed e [], t, [event])
    | (.ok c, t) =>
      if c.status = 0 then (.ok (), t, [event])
      else (failed (.base (.exitStatus c.status)) (c.stdout ++ c.stderr), t, [event])

def Surroundings.ofMachine (m : Host.Machine) (cancelled : Bool) : Surroundings where
  cwd := m.cwd
  home := m.env.home?
  onPath t := (m.find t "solc").toOption
  install := solcSelect m cancelled

end SolidityAst.Solc
