import SolidityAst.Cli.Arguments
import SolidityAst.Proofs.Failure
import SolidityAst.Proofs.Text.Trim

/-!
How reading a command line ends.

There are three ways: arguments that are valid and whose paths are trimmed, without a word; the request for help; and a
wrong usage.  In the last two a help or usage text is the last thing on standard error.  Which lines are accepted, and
as what, is told apart from the reader.
-/
namespace SolidityAst

/-! ## Trimming -/

namespace Text

/-- A text with something in it and without a blank at an end. -/
structure Trimmed (s : String) : Prop where
  nonempty : s ≠ ""
  first : ∀ c ∈ s.toList.head?, isBlank c = false
  last : ∀ c ∈ s.toList.getLast?, isBlank c = false

/-- A text that is not all blanks. -/
def HasText (s : String) : Prop := ∃ c ∈ s.toList, isBlank c = false

theorem trim_ne_empty_iff {s : String} : trim s ≠ "" ↔ HasText s := by
  have hempty : trim s = "" ↔ trimWhile isBlank s.toList = [] := by
    rw [trim, ← String.toList_inj, String.toList_ofList]
    rfl
  rw [ne_eq, hempty, trimWhile_eq_nil_iff]
  simp [HasText]

theorem trimmed_trim {s : String} (h : trim s ≠ "") : Trimmed (trim s) := by
  refine ⟨h, ?_, ?_⟩
  · rw [trim, String.toList_ofList]
    exact fun c hc => first_trimWhile hc
  · rw [trim, String.toList_ofList]
    exact fun c hc => last_trimWhile hc

end Text

namespace Cli

open Console Text

/-! ## Valid arguments -/

/-- Arguments with which a command can start. -/
structure Ready (a : Arguments) : Prop where
  valid : a.validate = .ok ()
  command : a.command = .single ∨ a.command = .batch
  file : a.command = .single → Trimmed a.filePath
  input : Trimmed a.inputDir
  output : Trimmed a.outputDir

/-- An export as it is asked for. -/
def exportOf (settings : List Setting) (file input output : String) : Arguments :=
  { (Arguments.none .single).applyAll settings with
    filePath := trim file, inputDir := trim input, outputDir := trim output }

/-- What the flags of a batch set. -/
def batchSettings (settings : List Setting) : Arguments := (Arguments.none .batch).applyAll settings

/-- A batch as it is asked for. -/
def batchOf (settings : List Setting) : Arguments :=
  { batchSettings settings with
    inputDir := trim (batchSettings settings).inputDir, outputDir := trim (batchSettings settings).outputDir }

@[simp] theorem command_applyAll (settings : List Setting) (a : Arguments) : (a.applyAll settings).command = a.command := by
  induction settings generalizing a with
  | nil => rfl
  | cons s settings ih =>
    have hstep : (a.apply s).command = a.command := by
      unfold Arguments.apply
      split <;> rfl
    exact (ih _).trans hstep

theorem validate_iff {a : Arguments} : a.validate = .ok () ↔ a.problem? = none := by
  unfold Arguments.validate
  split
  · rename_i hproblem
    simp [hproblem]
  · rename_i hproblem
    simp [hproblem]

theorem validate_single_iff {a : Arguments} (h : a.command = .single) :
    a.validate = .ok () ↔ a.filePath ≠ "" ∧ a.inputDir ≠ "" ∧ a.outputDir ≠ "" := by
  rw [validate_iff, Arguments.problem?, h]
  simp [and_assoc]

theorem validate_batch_iff {a : Arguments} (h : a.command = .batch) :
    a.validate = .ok () ↔ a.inputDir ≠ "" ∧ a.outputDir ≠ "" ∧ 0 ≤ a.concurrency := by
  rw [validate_iff, Arguments.problem?, h]
  dsimp only
  by_cases hinput : a.inputDir = ""
  · simp [hinput]
  by_cases houtput : a.outputDir = ""
  · simp [hinput, houtput]
  · simp [hinput, houtput]

@[simp] theorem command_exportOf {settings : List Setting} {file input output : String} :
    (exportOf settings file input output).command = .single :=
  command_applyAll settings _

@[simp] theorem command_batchOf {settings : List Setting} : (batchOf settings).command = .batch :=
  command_applyAll settings _

theorem validate_exportOf_iff {settings : List Setting} {file input output : String} :
    (exportOf settings file input output).validate = .ok () ↔ HasText file ∧ HasText input ∧ HasText output := by
  rw [validate_single_iff command_exportOf]
  exact and_congr trim_ne_empty_iff (and_congr trim_ne_empty_iff trim_ne_empty_iff)

theorem validate_batchOf_iff {settings : List Setting} :
    (batchOf settings).validate = .ok () ↔ HasText (batchSettings settings).inputDir ∧
      HasText (batchSettings settings).outputDir ∧ 0 ≤ (batchSettings settings).concurrency := by
  rw [validate_batch_iff command_batchOf]
  exact and_congr trim_ne_empty_iff (and_congr trim_ne_empty_iff Iff.rfl)

theorem ready_exportOf {settings : List Setting} {file input output : String}
    (h : (exportOf settings file input output).validate = .ok ()) : Ready (exportOf settings file input output) := by
  obtain ⟨hfile, hinput, houtput⟩ := (validate_single_iff command_exportOf).mp h
  exact ⟨h, .inl command_exportOf, fun _ => trimmed_trim hfile, trimmed_trim hinput, trimmed_trim houtput⟩

theorem ready_batchOf {settings : List Setting} (h : (batchOf settings).validate = .ok ()) :
    Ready (batchOf settings) := by
  obtain ⟨hinput, houtput, -⟩ := (validate_batch_iff command_batchOf).mp h
  refine ⟨h, .inr command_batchOf, fun hsingle => ?_, trimmed_trim hinput, trimmed_trim houtput⟩
  rw [command_batchOf] at hsingle
  cases hsingle

/-! ## Three ways to end -/

-- How the two commands are called.
def exportSynopsis : String := "solast [OPTIONS] <filePath> <inputDir> <outputFolder>"

def batchSynopsis : String := "solast batch -input <dir> -output <dir> "

/-- A text has another one in it. -/
def Shows (s text : String) : Prop := ∃ front back, text = front ++ s ++ back

theorem Shows.before {s text : String} (h : Shows s text) (more : String) : Shows s (text ++ more) := by
  obtain ⟨front, back, rfl⟩ := h
  exact ⟨front, back ++ more, String.append_assoc ..⟩

theorem Shows.behind {s text : String} (h : Shows s text) (more : String) : Shows s (more ++ text) := by
  obtain ⟨front, back, rfl⟩ := h
  exact ⟨more ++ front, back, by simp only [String.append_assoc]⟩

theorem Shows.ne_empty {s text : String} (h : Shows s text) (hs : s ≠ "") : text ≠ "" := by
  obtain ⟨front, back, rfl⟩ := h
  simp [hs]

/-- A text of the program, not an empty one, that says how a command is called. -/
structure IsHelp (p : Palette) (help : String) : Prop where
  listed : help ∈ [usage, generalHelp p, batchHelp p]
  nonempty : help ≠ ""
  calls : Shows exportSynopsis help ∨ Shows batchSynopsis help

theorem isHelp_usage (p : Palette) : IsHelp p usage :=
  ⟨by simp, by decide, .inl ⟨"Usage: ", "\nRun 'solast -h' for more information.\n", by decide⟩⟩

theorem isHelp_generalHelp (p : Palette) : IsHelp p (generalHelp p) := by
  have hline : Shows exportSynopsis (line "  solast [OPTIONS] <filePath> <inputDir> <outputFolder>") :=
    ⟨"  ", "\n", by decide⟩
  have hshows : Shows exportSynopsis (generalHelp p) := by
    unfold generalHelp
    iterate 17 apply Shows.before
    exact hline.behind _
  exact ⟨by simp, hshows.ne_empty (by decide), .inl hshows⟩

theorem isHelp_batchHelp (p : Palette) : IsHelp p (batchHelp p) := by
  have hline : Shows batchSynopsis (line ("  solast batch -input <dir> -output <dir> [-concurrency n] [-config file] " ++
      "[-solc path] [-v] [-log]")) :=
    ⟨"  ", "[-concurrency n] [-config file] [-solc path] [-v] [-log]\n", by decide⟩
  have hshows : Shows batchSynopsis (batchHelp p) := by
    unfold batchHelp
    exact ((hline.behind _).before _).before _
  exact ⟨by simp, hshows.ne_empty (by decide), .inr hshows⟩

/-- A help or usage text is the last thing on standard error. -/
def Explained (p : Palette) (events : List Event) : Prop :=
  ∃ help, IsHelp p help ∧ ∃ before, ∀ verbose, stderr verbose events = before ++ help

/-- How reading a command line may end. -/
inductive Settled (p : Palette) : ReadArguments → Prop
  | ready {a : Arguments} (h : Ready a) : Settled p ⟨[], .ok a⟩
  | help {events : List Event} (h : Explained p events) : Settled p ⟨events, .error (.base .helpRequested)⟩
  | usage {events : List Event} {f : Failure} (hcause : f.Holds .invalidArguments) (h : Explained p events) :
    Settled p ⟨events, .error f⟩

theorem holds_usage (problem : String) : (Failure.usage problem).Holds .invalidArguments := .within .base

section

variable {p : Palette} {help : String} (hhelp : IsHelp p help)
include hhelp

theorem explained_help : Explained p [.err help] := by
  exact ⟨help, hhelp, "", fun _ => rfl⟩

theorem explained_message (message : String) : Explained p [.err message, .err help] := by
  refine ⟨help, hhelp, message, fun verbose => ?_⟩
  show "" ++ message ++ help = message ++ help
  rw [String.empty_append]

theorem settled_refuse (e : FlagError) : Settled p (refuse help e) := by
  unfold refuse
  split
  · exact .help (explained_help hhelp)
  · exact .usage (holds_usage _) (explained_message hhelp _)

theorem settled_checked {a : Arguments} (h : a.validate = .ok () → Ready a) : Settled p (checked help a) := by
  unfold checked
  cases hvalid : a.validate with
  | ok _ => exact .ready (h hvalid)
  | error f =>
    -- A check fails in no other way than by a problem with the usage.
    refine .usage ?_ (explained_help hhelp)
    unfold Arguments.validate at hvalid
    split at hvalid
    · cases hvalid
      exact holds_usage _
    · cases hvalid

end

theorem settled_readSingle (p : Palette) (arguments : List String) : Settled p (readSingle p arguments) := by
  unfold readSingle
  split
  · exact settled_refuse (isHelp_generalHelp p) _
  · split
    · exact settled_checked (isHelp_usage p) ready_exportOf
    · exact .usage (holds_usage _) (explained_help (isHelp_usage p))

theorem settled_readBatch (p : Palette) (arguments : List String) : Settled p (readBatch p arguments) := by
  unfold readBatch
  split
  · exact settled_refuse (isHelp_batchHelp p) _
  · split
    · exact settled_checked (isHelp_batchHelp p) ready_batchOf
    · exact .usage (holds_usage _) (explained_help (isHelp_batchHelp p))

theorem settled_readArguments (p : Palette) (arguments : List String) : Settled p (readArguments p arguments) := by
  unfold readArguments
  split
  · exact settled_readBatch p _
  · exact settled_refuse (isHelp_generalHelp p) _
  · exact settled_readSingle p _

/-! ## Lines that are accepted -/

/-- A command line asks for an export or for a batch. -/
inductive AsksFor : List String → Arguments → Prop
  | single {arguments : List String} {settings : List Setting} {file input output : String}
    (hword : ∀ word ∈ arguments.head?, word ≠ "batch" ∧ word ≠ "help")
    (hread : readMixed commonFlags arguments = .ok ⟨settings, [file, input, output]⟩)
    (hfile : HasText file) (hinput : HasText input) (houtput : HasText output) :
    AsksFor arguments (exportOf settings file input output)
  | batch {arguments : List String} {settings : List Setting}
    (hread : readFlags batchFlags arguments = .ok ⟨settings, []⟩)
    (hinput : HasText (batchSettings settings).inputDir) (houtput : HasText (batchSettings settings).outputDir)
    (hconcurrency : 0 ≤ (batchSettings settings).concurrency) :
    AsksFor ("batch" :: arguments) (batchOf settings)

theorem outcome_refuse_ne (help : String) (e : FlagError) (a : Arguments) : (refuse help e).outcome ≠ .ok a := by
  unfold refuse
  split <;> simp

theorem outcome_checked_iff {help : String} {a b : Arguments} :
    (checked help a).outcome = .ok b ↔ a.validate = .ok () ∧ a = b := by
  unfold checked
  split
  · rename_i hvalid
    simp [hvalid]
  · rename_i hvalid
    simp [hvalid]

theorem readSingle_eq {p : Palette} {arguments : List String} {settings : List Setting} {file input output : String}
    (h : readMixed commonFlags arguments = .ok ⟨settings, [file, input, output]⟩) :
    readSingle p arguments = checked usage (exportOf settings file input output) := by
  rw [readSingle, h]
  rfl

theorem readBatch_eq {p : Palette} {arguments : List String} {settings : List Setting}
    (h : readFlags batchFlags arguments = .ok ⟨settings, []⟩) :
    readBatch p arguments = checked (batchHelp p) (batchOf settings) := by
  rw [readBatch, h]
  rfl

theorem exists_of_readSingle {p : Palette} {arguments : List String} {a : Arguments}
    (h : (readSingle p arguments).outcome = .ok a) : ∃ settings file input output,
      readMixed commonFlags arguments = .ok ⟨settings, [file, input, output]⟩ := by
  unfold readSingle at h
  split at h
  · exact absurd h (outcome_refuse_ne _ _ _)
  · rename_i l hread
    obtain ⟨settings, positionals⟩ := l
    dsimp only at h
    split at h
    · exact ⟨_, _, _, _, hread⟩
    · cases h

theorem exists_of_readBatch {p : Palette} {arguments : List String} {a : Arguments}
    (h : (readBatch p arguments).outcome = .ok a) :
    ∃ settings, readFlags batchFlags arguments = .ok ⟨settings, []⟩ := by
  unfold readBatch at h
  split at h
  · exact absurd h (outcome_refuse_ne _ _ _)
  · rename_i l hread
    obtain ⟨settings, positionals⟩ := l
    dsimp only at h
    split at h
    · exact ⟨_, hread⟩
    · cases h

theorem readArguments_single (p : Palette) {arguments : List String}
    (h : ∀ word ∈ arguments.head?, word ≠ "batch" ∧ word ≠ "help") :
    readArguments p arguments = readSingle p arguments := by
  unfold readArguments
  split
  · exact absurd rfl (h _ rfl).1
  · exact absurd rfl (h _ rfl).2
  · rfl

theorem outcome_of_asksFor (p : Palette) {arguments : List String} {a : Arguments} (h : AsksFor arguments a) :
    (readArguments p arguments).outcome = .ok a := by
  cases h with
  | single hword hread hfile hinput houtput =>
    rw [readArguments_single p hword, readSingle_eq hread]
    exact outcome_checked_iff.mpr ⟨validate_exportOf_iff.mpr ⟨hfile, hinput, houtput⟩, rfl⟩
  | batch hread hinput houtput hconcurrency =>
    rw [readArguments, readBatch_eq hread]
    exact outcome_checked_iff.mpr ⟨validate_batchOf_iff.mpr ⟨hinput, houtput, hconcurrency⟩, rfl⟩

theorem asksFor_of_outcome {p : Palette} {arguments : List String} {a : Arguments}
    (h : (readArguments p arguments).outcome = .ok a) : AsksFor arguments a := by
  unfold readArguments at h
  split at h
  · rename_i rest
    obtain ⟨settings, hread⟩ := exists_of_readBatch h
    rw [readBatch_eq hread, outcome_checked_iff, validate_batchOf_iff] at h
    obtain ⟨⟨hinput, houtput, hconcurrency⟩, rfl⟩ := h
    exact .batch hread hinput houtput hconcurrency
  · exact absurd h (outcome_refuse_ne _ _ _)
  · rename_i hbatch hhelp
    obtain ⟨settings, file, input, output, hread⟩ := exists_of_readSingle h
    rw [readSingle_eq hread, outcome_checked_iff, validate_exportOf_iff] at h
    obtain ⟨⟨hfile, hinput, houtput⟩, rfl⟩ := h
    refine .single (fun word hword => ?_) hread hfile hinput houtput
    obtain ⟨rest, rfl⟩ := List.head?_eq_some_iff.mp hword
    constructor
    · rintro rfl
      exact hbatch rest rfl
    · rintro rfl
      exact hhelp rest rfl

/-- Reading a command line ends in one of three ways, and with arguments exactly when the line asks for them. -/
theorem readArguments_settles (p : Palette) (arguments : List String) :
    Settled p (readArguments p arguments) ∧
    ∀ a, (readArguments p arguments).outcome = .ok a ↔ AsksFor arguments a :=
  ⟨settled_readArguments p arguments, fun _ => ⟨asksFor_of_outcome, outcome_of_asksFor p⟩⟩

end Cli

end SolidityAst
