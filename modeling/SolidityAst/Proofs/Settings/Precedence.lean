import Mathlib.Data.List.Basic
import SolidityAst.Cli.Run

/-!
Which settings a run has.

The flags, the environment and the settings file are asked in this order, and the first that says something gives a
setting its value.  Each has its own way of saying nothing: an empty text, a word that cannot be read, a number that is
not positive.  The settings are checked before the flags are put over them, so it has to be shown that the flags do no
harm.
-/
namespace SolidityAst

open Text

namespace Settings

/-! ## The settings that the environment reaches -/

/-- What kind of value a setting has. -/
inductive Kind where
  | text
  | truth
  | integer

def Kind.Value : Kind → Type
  | text => String
  | truth => Bool
  | integer => Int

/-- The value that a text gives, if it gives one. -/
def Kind.read? : (k : Kind) → String → Option k.Value
  | text, v => if v = "" then none else some v
  | truth, v => truth? (trim v)
  | integer, v => (Numeral.decimal v).value?

/-- The settings that the environment reaches. -/
inductive Controlled : Kind → Type where
  | solcPath : Controlled .text
  | solcVersion : Controlled .text
  | autoInstall : Controlled .truth
  | timeout : Controlled .text
  | concurrency : Controlled .integer
  | logFile : Controlled .truth
  | ledger : Controlled .truth
  | host : Controlled .text
  | port : Controlled .text
  | user : Controlled .text
  | password : Controlled .text
  | databaseName : Controlled .text

namespace Controlled

def variableName : {k : Kind} → Controlled k → String
  | _, solcPath => "SOLAST_SOLC_PATH"
  | _, solcVersion => "SOLAST_SOLC_VERSION"
  | _, autoInstall => "SOLAST_SOLC_AUTO_INSTALL"
  | _, timeout => "SOLAST_SOLC_TIMEOUT"
  | _, concurrency => "SOLAST_CONCURRENCY"
  | _, logFile => "SOLAST_LOG_FILE"
  | _, ledger => "SOLAST_DB_ENABLED"
  | _, host => "SOLAST_DB_HOST"
  | _, port => "SOLAST_DB_PORT"
  | _, user => "SOLAST_DB_USER"
  | _, password => "SOLAST_DB_PASSWORD"
  | _, databaseName => "SOLAST_DB_NAME"

/-- The value of a setting. -/
def of (s : Settings) : {k : Kind} → Controlled k → k.Value
  | _, solcPath => s.solc.path
  | _, solcVersion => s.solc.version
  | _, autoInstall => s.solc.autoInstall
  | _, timeout => s.solc.timeout
  | _, concurrency => s.batch.concurrency
  | _, logFile => s.log.file
  | _, ledger => s.database.enabled
  | _, host => s.database.host
  | _, port => s.database.port
  | _, user => s.database.user
  | _, password => s.database.password
  | _, databaseName => s.database.name

/-- The value that the flags give, if they give one. -/
def flag? (a : Cli.Arguments) : {k : Kind} → Controlled k → Option k.Value
  | _, solcPath => Kind.text.read? a.solcPath
  | _, solcVersion => Kind.text.read? a.solcVersion
  | _, concurrency => if 0 < a.concurrency then some a.concurrency else none
  | _, _ => none

/-- The value of the first that gives one: the flags, the environment, or else the file. -/
def firstGiven (file : Settings) (env : Environment) (a : Cli.Arguments) {k : Kind} (c : Controlled k) : k.Value :=
  ((c.flag? a).or (k.read? (env.get c.variableName))).getD (c.of file)

end Controlled

theorem mem_variableNames_iff (name : String) :
    name ∈ variableNames ↔ ∃ k, ∃ c : Controlled k, c.variableName = name := by
  constructor
  · intro h
    simp only [variableNames, List.mem_cons, List.not_mem_nil, or_false] at h
    rcases h with rfl | rfl | rfl | rfl | rfl | rfl | rfl | rfl | rfl | rfl | rfl | rfl
    · exact ⟨_, .solcPath, rfl⟩
    · exact ⟨_, .solcVersion, rfl⟩
    · exact ⟨_, .autoInstall, rfl⟩
    · exact ⟨_, .timeout, rfl⟩
    · exact ⟨_, .concurrency, rfl⟩
    · exact ⟨_, .logFile, rfl⟩
    · exact ⟨_, .ledger, rfl⟩
    · exact ⟨_, .host, rfl⟩
    · exact ⟨_, .port, rfl⟩
    · exact ⟨_, .user, rfl⟩
    · exact ⟨_, .password, rfl⟩
    · exact ⟨_, .databaseName, rfl⟩
  · rintro ⟨k, c, rfl⟩
    cases c <;> simp [variableNames, Controlled.variableName]

/-- The settings that the environment does not reach. -/
structure Uncontrolled where
  stopAfterParsing : Option Bool
  output : OutputSettings
  extensions : List String
  exclude : List String
  logDir : String
  source : String

def uncontrolled (s : Settings) : Uncontrolled :=
  ⟨s.solc.stopAfterParsing, s.output, s.batch.extensions, s.batch.exclude, s.log.dir, s.source⟩

-- There are no other settings.
theorem eq_of_controlled {s s' : Settings} (h : ∀ (k : Kind) (c : Controlled k), c.of s = c.of s')
    (hrest : s.uncontrolled = s'.uncontrolled) : s = s' := by
  obtain ⟨⟨_, _, _, _, _⟩, _, ⟨_, _, _⟩, ⟨_, _⟩, ⟨_, _, _, _, _, _⟩, _⟩ := s
  obtain ⟨⟨_, _, _, _, _⟩, _, ⟨_, _, _⟩, ⟨_, _⟩, ⟨_, _, _, _, _, _⟩, _⟩ := s'
  cases hrest
  cases h _ .solcPath
  cases h _ .solcVersion
  cases h _ .autoInstall
  cases h _ .timeout
  cases h _ .concurrency
  cases h _ .logFile
  cases h _ .ledger
  cases h _ .host
  cases h _ .port
  cases h _ .user
  cases h _ .password
  cases h _ .databaseName
  rfl

/-! ## One layer over another -/

theorem fromEnv_eq (env : Environment) (name old : String) :
    fromEnv env name old = (Kind.text.read? (env.get name)).getD old := by
  by_cases hempty : env.get name = ""
  · rewrite [fromEnv, if_pos hempty, Kind.read?, if_pos hempty]
    rfl
  · rewrite [fromEnv, if_neg hempty, Kind.read?, if_neg hempty]
    rfl

theorem truthFromEnv_eq (env : Environment) (name : String) (old : Bool) :
    truthFromEnv env name old = (Kind.truth.read? (env.get name)).getD old := by
  rewrite [truthFromEnv, Kind.read?]
  rfl

theorem of_withEnvironment (s : Settings) (env : Environment) {k : Kind} (c : Controlled k) :
    c.of (s.withEnvironment env) = (k.read? (env.get c.variableName)).getD (c.of s) := by
  cases c with
  | autoInstall | logFile | ledger =>
    simp only [Controlled.of, withEnvironment, Controlled.variableName, truthFromEnv_eq]
  | concurrency => rfl
  | solcPath | solcVersion | timeout | host | port | user | password | databaseName => exact fromEnv_eq env _ _

theorem of_override (s : Settings) (a : Cli.Arguments) {k : Kind} (c : Controlled k) :
    c.of (a.override s) = (c.flag? a).getD (c.of s) := by
  cases c with
  | solcPath | solcVersion =>
    simp only [Controlled.of, Controlled.flag?, Cli.Arguments.override, Kind.read?]
    split <;> rfl
  | concurrency =>
    simp only [Controlled.of, Controlled.flag?, Cli.Arguments.override]
    split <;> rfl
  | autoInstall | timeout | logFile | ledger | host | port | user | password | databaseName => rfl

/-- What the layers come to: each setting that the environment reaches has the first value that is given for it, and the
others are those of the file. -/
structure Governed (file : Settings) (env : Environment) (a : Cli.Arguments) (s : Settings) : Prop where
  controlled : ∀ (k : Kind) (c : Controlled k), c.of s = c.firstGiven file env a
  others : s.uncontrolled = file.uncontrolled

theorem governed_layers (file : Settings) (env : Environment) (a : Cli.Arguments) :
    Governed file env a (a.override (file.withEnvironment env)) where
  controlled := by
    intro k c
    rw [of_override, of_withEnvironment, Controlled.firstGiven]
    cases c.flag? a <;> rfl
  others := rfl

theorem governed_iff {file : Settings} {env : Environment} {a : Cli.Arguments} {s : Settings} :
    Governed file env a s ↔ s = a.override (file.withEnvironment env) := by
  constructor
  · intro h
    have hlayers := governed_layers file env a
    apply eq_of_controlled
    · intro k c
      rw [h.controlled, hlayers.controlled]
    · rw [h.others, hlayers.others]
  · rintro rfl
    exact governed_layers file env a

/-! ## Settings that the program can work with -/

structure Workable (s : Settings) : Prop where
  concurrency : 0 < s.batch.concurrency
  suffix : s.output.suffix ≠ ""
  timeout : ∃ d, s.timeout = .ok d
  database : s.database.enabled = true → s.database.name ≠ ""

theorem validate_eq_ok_iff {s : Settings} : s.validate = .ok () ↔ s.Workable := by
  unfold validate
  constructor
  · intro h
    split at h
    · cases h
    rename_i hconcurrency
    split at h
    · cases h
    rename_i hsuffix
    split at h
    · cases h
    rename_i d htimeout
    split at h
    · cases h
    rename_i hdatabase
    refine ⟨Int.not_le.mp hconcurrency, hsuffix, ⟨d, htimeout⟩, fun henabled hname => hdatabase ?_⟩
    rw [henabled, decide_eq_true hname]
    rfl
  · rintro ⟨hconcurrency, hsuffix, ⟨d, htimeout⟩, hdatabase⟩
    rw [if_neg (Int.not_le.mpr hconcurrency), if_neg hsuffix, htimeout]
    dsimp only
    rw [if_neg]
    intro h
    rw [Bool.and_eq_true, decide_eq_true_eq] at h
    exact hdatabase h.1 h.2

theorem effective_override_eq_ok_iff {file s : Settings} {env : Environment} {a : Cli.Arguments} :
    (effective file env).map a.override = .ok s ↔
      (file.withEnvironment env).Workable ∧ Governed file env a s := by
  rw [← validate_eq_ok_iff, governed_iff]
  unfold effective
  dsimp only
  cases (file.withEnvironment env).validate with
  | error f => simp [Except.map]
  | ok _ => simp [Except.map, eq_comm]

-- Of what is checked the flags change the number of workers only, and only to a positive one.
theorem Workable.override {s : Settings} (h : s.Workable) (a : Cli.Arguments) : (a.override s).Workable where
  concurrency := by
    have hnumber : (a.override s).batch.concurrency =
        if 0 < a.concurrency then a.concurrency else s.batch.concurrency := rfl
    rw [hnumber]
    split
    · assumption
    · exact h.concurrency
  suffix := h.suffix
  timeout := h.timeout
  database := h.database

end Settings

namespace Cli

open Settings

/-! ## The start of a run -/

theorem configure_eq_ok_iff {t : FileTree} {cwd : Place} {env : Environment} {a : Arguments} {s : Settings} :
    (configure t cwd env a).outcome = .ok s ↔ ∃ file, fromFile t cwd a.configPath = .ok file ∧
      (effective file (configure t cwd env a).env).map a.override = .ok s := by
  unfold configure load
  dsimp only
  cases fromFile t cwd a.configPath with
  | error f => simp
  | ok file =>
    dsimp only
    cases hload : effective file (loadEnvFile t cwd env).1 with
    | error f => simp [hload, Except.map]
    | ok s' => simp [hload, Except.map]

/-- The job of a run with the given settings. -/
def jobOf (sur : Surroundings) (env : Environment) (s : Settings) (timeout : Duration) : Job :=
  ⟨{ sur.machine with env := env }, sur.tag, s, timeout, (openLedger sur.server s.database).1⟩

-- With a time limit that can be read a run comes to its command.
theorem perform_outcome {sur : Surroundings} {env : Environment} {s : Settings} {timeout : Duration}
    (h : s.timeout = .ok timeout) (t : FileTree) (a : Arguments) :
    (perform sur env s t a).outcome =
      ((jobOf sur env s timeout).carryOut sur (openLog sur t a s).2.1 a).outcome := by
  unfold perform
  rw [h]
  rfl

theorem runner_concurrency {j : Job} (h : 0 < j.settings.batch.concurrency) (sur : Surroundings) :
    (j.runner sur).concurrency = j.settings.batch.concurrency := if_neg (Int.not_le.mpr h)

/-- A run is set up and its command carried out: the settings pass their check, the time limit is read, and a batch has
as many workers as the settings say. -/
structure Started (sur : Surroundings) (env : Environment) (s : Settings) (t : FileTree) (a : Arguments) : Prop where
  workable : s.Workable
  carriedOut : ∃ timeout, s.timeout = .ok timeout ∧
    (perform sur env s t a).outcome =
      ((jobOf sur env s timeout).carryOut sur (openLog sur t a s).2.1 a).outcome ∧
    ((jobOf sur env s timeout).runner sur).concurrency = s.batch.concurrency

theorem started_of_workable {s : Settings} (h : s.Workable) (sur : Surroundings) (env : Environment)
    (t : FileTree) (a : Arguments) : Started sur env s t a := by
  obtain ⟨timeout, htimeout⟩ := h.timeout
  exact ⟨h, timeout, htimeout, perform_outcome htimeout t a,
    runner_concurrency (j := jobOf sur env s timeout) h.concurrency sur⟩

/-- A settings file may be decoded to anything.  Settings come of it exactly when those of the file and the environment
can be worked with, and then each of the twelve that the environment reaches has the value that a flag gives, or else
its variable, or else the file, and the others are those of the file.  They can be worked with too: there is a positive
number of workers, a suffix, a time limit that can be read, and a name for a ledger that is in use.  So a run that has
its settings comes to its command, and a batch has as many workers as the settings say. -/
theorem settings_by_precedence :
    (∀ name, name ∈ variableNames ↔ ∃ k, ∃ c : Controlled k, c.variableName = name) ∧
    (∀ (file : Settings) (env : Environment) (a : Arguments) (s : Settings),
      (effective file env).map a.override = .ok s ↔
        (file.withEnvironment env).Workable ∧ Governed file env a s) ∧
    (∀ (file : Settings) (env : Environment) (a : Arguments) (s : Settings),
      (effective file env).map a.override = .ok s → ∀ sur t, Started sur env s t a) ∧
    ∀ (t : FileTree) (cwd : Place) (env : Environment) (a : Arguments) (s : Settings),
      (configure t cwd env a).outcome = .ok s ↔ ∃ file, fromFile t cwd a.configPath = .ok file ∧
        (effective file (configure t cwd env a).env).map a.override = .ok s := by
  refine ⟨mem_variableNames_iff, fun file env a s => effective_override_eq_ok_iff, fun file env a s h sur t => ?_,
    fun t cwd env a s => configure_eq_ok_iff⟩
  obtain ⟨hworkable, hgoverned⟩ := effective_override_eq_ok_iff.mp h
  have hs : s.Workable := by
    rw [governed_iff.mp hgoverned]
    exact hworkable.override a
  exact started_of_workable hs sur env t a

-- Each layer has a say: the flags on the version, the environment on the path and the log, and the file, as a word is
-- no number, on the workers.
def layeredEnv : Environment :=
  [("SOLAST_CONCURRENCY", "many"), ("SOLAST_LOG_FILE", " T "), ("SOLAST_SOLC_PATH", "/opt/solc"),
    ("SOLAST_SOLC_VERSION", "0.7.6")]

def layeredArguments : Arguments := { Arguments.none .batch with solcVersion := "0.8.26" }

def layeredSettings : Settings :=
  { Settings.default with
    solc := { Settings.default.solc with path := "/opt/solc", version := "0.8.26" }
    log := { Settings.default.log with file := true } }

theorem settings_by_precedence_layered :
    (configure .empty [] layeredEnv layeredArguments).outcome = .ok layeredSettings ∧
      ∀ sur, Started sur layeredEnv layeredSettings .empty layeredArguments := by
  have hlayers : (effective default layeredEnv).map layeredArguments.override = .ok layeredSettings := by
    decide +kernel
  have henv : (configure .empty [] layeredEnv layeredArguments).env = layeredEnv := by decide
  constructor
  · refine (settings_by_precedence.2.2.2 _ _ _ _ _).mpr ⟨default, rfl, ?_⟩
    rw [henv]
    exact hlayers
  · exact fun sur => settings_by_precedence.2.2.1 _ _ _ _ hlayers sur .empty

end Cli

end SolidityAst
