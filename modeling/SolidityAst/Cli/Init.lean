import SolidityAst.Cli.Arguments
import SolidityAst.FileTree.Operations
import SolidityAst.Settings.Example

/-!
Writing a first settings file.

A settings file that is there is kept unless it is to be overwritten.
-/
namespace SolidityAst.Cli

open Console Text

def initFlags : List Flag := [⟨"force", .truth⟩, ⟨"dir", .text⟩]

/-- Where a settings file is written, and whether one that is there is overwritten. -/
structure InitArguments where
  force : Bool
  dir : String
  deriving DecidableEq, Repr

def InitArguments.apply (a : InitArguments) (s : Setting) : InitArguments :=
  match s.name, s.value with
  | "force", .truth b => { a with force := b }
  | "dir", .text v => { a with dir := v }
  | _, _ => a

def InitArguments.target (a : InitArguments) : String := Path.join [a.dir, "settings.yaml"]

structure Done where
  outcome : Except Failure Unit
  tree : FileTree
  events : List Event

def InitArguments.write (a : InitArguments) (p : Palette) (t : FileTree) (cwd : Place) : Done :=
  let refused (e : FileError) (t : FileTree) : Done :=
    ⟨.error (.during "failed to init config file" (.base (.file e))), t, []⟩
  if t.isThere cwd a.target && !a.force then
    let notice := p.yellow ++ s!"⚠️  {a.target} already exists (use -force to overwrite)" ++ p.reset
    ⟨.ok (), t, [.out (line notice)]⟩
  else
    match t.makeDirectories cwd a.dir with
    | (.error e, t) => refused e t
    | (.ok (), t) =>
      match t.write cwd a.target (Utf8.encode Settings.exampleFile) with
      | .error e => refused e t
      | .ok t =>
        let notice := p.green ++ s!"✅ Created default config file: {a.target}" ++ p.reset
        ⟨.ok (), t, [.out (line notice)]⟩

/-- Carries out the command that writes a settings file. Arguments that are no flags are ignored, and
asking for help is no failure. -/
def init (p : Palette) (t : FileTree) (cwd : Place) (arguments : List String) : Done :=
  match readFlags initFlags arguments with
  | .ok l => (l.settings.foldl InitArguments.apply ⟨false, "config"⟩).write p t cwd
  | .error .help => ⟨.ok (), t, [.err initHelp]⟩
  | .error e =>
    let r := refuse initHelp e
    ⟨r.outcome.map fun _ => (), t, r.events⟩

end SolidityAst.Cli
