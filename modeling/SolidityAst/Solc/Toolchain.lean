import SolidityAst.Console.Event
import SolidityAst.FileTree.Basic
import SolidityAst.Solc.Binary
import SolidityAst.Solc.Pragma
import SolidityAst.Failure

/-!
Choosing a compiler.

A configured path comes first, then the installed compiler of the configured version or of the version
that the source asks for, then the compiler on the search path. A version that was found is remembered,
and so is the outcome of installing one: no version is installed twice.
-/
namespace SolidityAst.Solc

open Console

structure Options where
  /-- The compiler to use, whatever the source asks for. -/
  path : String
  /-- The version to use; when it is empty the source is asked. -/
  version : String
  autoInstall : Bool
  deriving DecidableEq, Repr

structure Toolchain where
  options : Options
  /-- Where versions were found. -/
  cache : List (String × String)
  /-- The versions whose installation was tried, and how it went. -/
  installs : List (String × Except Failure Unit)

def Toolchain.new (options : Options) : Toolchain := ⟨options, [], []⟩

/-- Installs a version; gives the outcome, the tree it leaves and what it logs. -/
abbrev Installer := (version : String) → FileTree → Except Failure Unit × FileTree × List Event

structure Surroundings where
  cwd : Place
  /-- The home directory, if there is one. -/
  home : Option String
  /-- The compiler on the search path, if there is one. -/
  onPath : FileTree → Option String
  install : Installer

structure Answer (α : Type) where
  outcome : Except Failure α
  toolchain : Toolchain
  tree : FileTree
  events : List Event
  /-- The calls of the installer: the version it was to install, and the tree it found. -/
  calls : List (String × FileTree)

/-- The places where a version may be installed, in the order in which they are tried. -/
def candidatePaths (home version : String) : List String :=
  let artifact := Path.join [home, ".solc-select", "artifacts", "solc-" ++ version]
  let solcx := Path.join [home, ".solcx"]
  [Path.join [artifact, "solc-" ++ version],
    Path.join [artifact, "solc"],
    Path.join [home, ".solc-select", "artifacts", version, "solc-" ++ version],
    Path.join [solcx, "solc-v" ++ version],
    Path.join [solcx, "solc-" ++ version]]

def Surroundings.findInstalled? (s : Surroundings) (t : FileTree) (version : String) : Option String :=
  s.home.bind fun home => (candidatePaths home version).find? (t.isExecutable s.cwd)

namespace Toolchain

def remember (tc : Toolchain) (version path : String) : Toolchain :=
  { tc with cache := Assoc.insert version path tc.cache }

/-- The remembered place of a version, if something is still there. -/
def cached? (tc : Toolchain) (s : Surroundings) (t : FileTree) (version : String) : Option String :=
  (Assoc.find? version tc.cache).filter (t.isThere s.cwd)

/-- Installs a version unless that was tried before; gives how it went. -/
def installOnce (tc : Toolchain) (s : Surroundings) (t : FileTree) (version : String) : Answer Unit :=
  match Assoc.find? version tc.installs with
  | some outcome => ⟨outcome, tc, t, [], []⟩
  | none =>
    let (outcome, t', events) := s.install version t
    ⟨outcome, { tc with installs := Assoc.insert version outcome tc.installs }, t', events,
      [(version, t)]⟩

/-- The path of an installed version, after an installation if need be. -/
def pathOf (tc : Toolchain) (s : Surroundings) (t : FileTree) (version : String) : Answer String :=
  let version := Version.normalize version
  if version = "" then ⟨.error (.told "version is empty"), tc, t, [], []⟩
  else
    match tc.cached? s t version with
    | some path => ⟨.ok path, tc, t, [], []⟩
    | none =>
      match s.findInstalled? t version with
      | some path => ⟨.ok path, tc.remember version path, t, [], []⟩
      | none =>
        if !tc.options.autoInstall then
          let hint := s!"enable solc.auto_install or run: solc-select install {version}"
          ⟨.error (.told s!"solc {version} is not installed ({hint})"), tc, t, [], []⟩
        else
          let installed := tc.installOnce s t version
          match installed.outcome with
          | .error e => { installed with outcome := .error e }
          | .ok () =>
            match s.findInstalled? installed.tree version with
            | some path =>
              { installed with
                outcome := .ok path
                toolchain := installed.toolchain.remember version path }
            | none =>
              { installed with
                outcome := .error (.told s!"solc {version} installed but binary not found") }

/-- The compiler on the search path, for a source that asks for `version` (or for none). -/
def fallback (s : Surroundings) (t : FileTree) (version : String) : Except Failure Binary :=
  match s.onPath t with
  | some path => .ok ⟨path, ""⟩
  | none =>
    let doing :=
      if version = "" then "no solc on PATH" else s!"no solc for version {version} and none on PATH"
    .error (.during doing (.base .compilerNotFound))

/-- The version to look for: the configured one, or else the one the source asks for. -/
def wanted (tc : Toolchain) (source : Bytes) : String :=
  if tc.options.version = "" then (Pragma.version? source).getD "" else tc.options.version

def resolve (tc : Toolchain) (s : Surroundings) (t : FileTree) (source : Bytes) : Answer Binary :=
  let path := tc.options.path
  if path ≠ "" then
    if t.isExecutable s.cwd path then ⟨.ok ⟨path, Version.normalize tc.options.version⟩, tc, t, [], []⟩
    else
      let doing := s!"configured solc {path} is not an executable file"
      ⟨.error (.during doing (.base .compilerNotFound)), tc, t, [], []⟩
  else
    let version := tc.wanted source
    if version = "" then ⟨fallback s t "", tc, t, [], []⟩
    else
      let found := tc.pathOf s t version
      match found.outcome with
      | .ok path => { found with outcome := .ok ⟨path, Version.normalize version⟩ }
      | .error e =>
        let event : Event :=
          .say .debug "solc %s unavailable, falling back to PATH: %v" [.text version, .text e.message]
        { found with
          outcome := fallback s found.tree version
          events := found.events ++ [event] }

end Toolchain

end SolidityAst.Solc
