import SolidityAst.Text.Numeral
import SolidityAst.Text.Quoted
import SolidityAst.Text.Fields

/-!
Reading flags from a command line.

A flag is `-name`, with one dash or two; its value follows after `=` or, unless the flag is a truth
value, as the next argument. Arguments that are no flags are positional. `--` ends the flags. When flags
and positionals may be mixed, reading goes on after a positional, unless the argument before it was
`--`, be it as the value of a flag.
-/
namespace SolidityAst.Cli

open Text

inductive FlagKind where
  | truth
  | text
  | integer
  deriving DecidableEq, Repr

inductive FlagValue where
  | truth (b : Bool)
  | text (s : String)
  | integer (n : Int)
  deriving DecidableEq, Repr

structure Flag where
  name : String
  kind : FlagKind
  deriving DecidableEq, Repr

structure Setting where
  name : String
  value : FlagValue
  deriving DecidableEq, Repr

inductive FlagError where
  | help
  | badForm (argument : String)
  | undefined (name : String)
  | missingValue (name : String)
  | badTruth (name value : String)
  | badValue (name value : String)
  | outOfRange (name value : String)
  deriving DecidableEq, Repr

def FlagError.message : FlagError → String
  | help => "flag: help requested"
  | badForm argument => "bad flag syntax: " ++ argument
  | undefined name => "flag provided but not defined: -" ++ name
  | missingValue name => "flag needs an argument: -" ++ name
  | badTruth name value => s!"invalid boolean value {quoted value} for -{name}: parse error"
  | badValue name value => s!"invalid value {quoted value} for flag -{name}: parse error"
  | outOfRange name value => s!"invalid value {quoted value} for flag -{name}: value out of range"

def Flag.read (f : Flag) (value : String) : Except FlagError Setting :=
  match f.kind with
  | .text => .ok ⟨f.name, .text value⟩
  | .truth =>
    match truth? value with
    | some b => .ok ⟨f.name, .truth b⟩
    | none => .error (.badTruth f.name value)
  | .integer =>
    match Numeral.signedAny value.toList with
    | .value n => .ok ⟨f.name, .integer n⟩
    | .malformed => .error (.badValue f.name value)
    | .outOfRange _ => .error (.outOfRange f.name value)

inductive Argument where
  | positional
  /-- The end of the flags. -/
  | separator
  | setting (s : Setting)
  /-- A flag whose value is the next argument. -/
  | awaiting (f : Flag)
  | wrong (e : FlagError)
  deriving DecidableEq, Repr

/-- The name of a flag, and its value if it has one after `=`. -/
def splitValue (body : List Char) : String × Option String :=
  match body.dropWhile (· != '=') with
  | [] => (String.ofList body, none)
  | _ :: value => (String.ofList (body.takeWhile (· != '=')), some (String.ofList value))

def flagArgument (flags : List Flag) (body : List Char) : Argument :=
  let (name, value) := splitValue body
  match flags.find? (·.name == name) with
  | none => .wrong (if name = "help" || name = "h" then .help else .undefined name)
  | some f =>
    match value with
    | some v =>
      match f.read v with
      | .ok s => .setting s
      | .error e => .wrong e
    | none => if f.kind = .truth then .setting ⟨f.name, .truth true⟩ else .awaiting f

def classify (flags : List Flag) (argument : String) : Argument :=
  match argument.toList with
  | ['-', '-'] => .separator
  | '-' :: c :: cs =>
    let body := if c = '-' then cs else c :: cs
    match body with
    | '-' :: _ | '=' :: _ => .wrong (.badForm argument)
    | _ => flagArgument flags body
  | _ => .positional

structure Line where
  settings : List Setting
  positionals : List String
  deriving DecidableEq, Repr

def Line.set (s : Setting) (l : Line) : Line := { l with settings := s :: l.settings }

def Line.add (argument : String) (l : Line) : Line :=
  { l with positionals := argument :: l.positionals }

/-- Reads a line. `pending` is a flag whose value comes next; `dashes` says whether the argument just
before was `--` as such a value. -/
def readLine (flags : List Flag) (mixed : Bool) :
    (pending : Option Flag) → (dashes : Bool) → List String → Except FlagError Line
  | none, _, [] => .ok ⟨[], []⟩
  | some f, _, [] => .error (.missingValue f.name)
  | some f, _, argument :: rest =>
    match f.read argument with
    | .error e => .error e
    | .ok s => (readLine flags mixed none (argument == "--") rest).map (Line.set s)
  | none, dashes, argument :: rest =>
    match classify flags argument with
    | .wrong e => .error e
    | .separator => .ok ⟨[], rest⟩
    | .setting s => (readLine flags mixed none false rest).map (Line.set s)
    | .awaiting f => readLine flags mixed (some f) false rest
    | .positional =>
      if mixed && !dashes then (readLine flags mixed none false rest).map (Line.add argument)
      else .ok ⟨[], argument :: rest⟩

def readFlags (flags : List Flag) (arguments : List String) : Except FlagError Line :=
  readLine flags false none false arguments

def readMixed (flags : List Flag) (arguments : List String) : Except FlagError Line :=
  readLine flags true none false arguments

end SolidityAst.Cli
