import SolidityAst.Cli.Arguments

/-!
Flags anywhere among the positionals.

A line is read argument by argument: what one argument adds does not depend on the arguments before it.  So it makes
no difference where among the positionals a flag stands, as long as the flags keep their order and so do the
positionals.
-/
namespace SolidityAst.Cli

open Text

/-! ## One argument -/

/-- An argument that cannot be a flag: it has no dash at its start, or nothing behind it. -/
def IsPositional (argument : String) : Prop := argument.toList.length ≤ 1 ∨ argument.toList.head? ≠ some '-'

instance (argument : String) : Decidable (IsPositional argument) := inferInstanceAs (Decidable (_ ∨ _))

theorem flagArgument_ne_positional (flags : List Flag) (body : List Char) :
    flagArgument flags body ≠ .positional := by
  unfold flagArgument
  dsimp only
  split
  · simp
  · split
    · split <;> simp
    · split <;> simp

theorem classify_eq_positional_iff {flags : List Flag} {argument : String} :
    classify flags argument = .positional ↔ IsPositional argument := by
  unfold classify IsPositional
  generalize argument.toList = cs
  split
  · simp
  · dsimp only
    refine iff_of_false ?_ (by simp)
    split
    · simp
    · simp
    · exact flagArgument_ne_positional _ _
  · rename_i hdashes hdash
    refine iff_of_true rfl ?_
    match cs with
    | [] => simp
    | [c] => simp
    | c :: d :: cs =>
      right
      rintro ⟨⟩
      exact hdash d cs rfl

theorem classify_dash {flags : List Flag} {argument : String} {c : Char} {cs : List Char}
    (h : argument.toList = '-' :: c :: cs) (hdash : c ≠ '-') (hequal : c ≠ '=') :
    classify flags argument = flagArgument flags (c :: cs) := by
  unfold classify
  rw [h]
  split
  · rename_i heq
    simp only [List.cons.injEq, true_and] at heq
    exact absurd heq.1 hdash
  · rename_i d ds _ heq
    obtain ⟨rfl, rfl⟩ : c = d ∧ cs = ds := by simpa using heq
    dsimp only
    rw [if_neg hdash]
    split
    · rename_i heq
      exact absurd (List.cons.inj heq).1 hdash
    · rename_i heq
      exact absurd (List.cons.inj heq).1 hequal
    · rfl
  · rename_i hother
    exact absurd rfl (hother c cs)

theorem splitValue_joined {name : List Char} (h : '=' ∉ name) (value : List Char) :
    splitValue (name ++ '=' :: value) = (String.ofList name, some (String.ofList value)) := by
  have hname : ∀ c ∈ name, (c != '=') = true := fun c hc => bne_iff_ne.mpr fun heq => h (heq ▸ hc)
  unfold splitValue
  rw [List.dropWhile_append_of_pos hname, List.takeWhile_append_of_pos hname]
  simp

/-! ## One step -/

section Steps

variable {flags : List Flag} {mixed dashes : Bool} {argument value : String} {rest : List String} {f : Flag}
  {s : Setting}

theorem readLine_setting (h : classify flags argument = .setting s) :
    readLine flags mixed none dashes (argument :: rest) =
      (readLine flags mixed none false rest).map (Line.set s) := by
  rw [readLine, h]

theorem readLine_value (h : classify flags argument = .awaiting f) (hvalue : f.read value = .ok s) :
    readLine flags mixed none dashes (argument :: value :: rest) =
      (readLine flags mixed none (value == "--") rest).map (Line.set s) := by
  rw [readLine, h]
  dsimp only
  rw [readLine, hvalue]

theorem readLine_positional (h : classify flags argument = .positional) :
    readLine flags true none false (argument :: rest) =
      (readLine flags true none false rest).map (Line.add argument) := by
  rw [readLine, h]
  rfl

end Steps

/-! ## The flags of an export -/

/-- A flag that is on when it is given. -/
inductive Switch where
  | verbose
  | log
  deriving DecidableEq, Repr

/-- A flag that is given with a text. -/
inductive Parameter where
  | config
  | solc
  | solcVersion
  deriving DecidableEq, Repr

/-- The flag of a switch. -/
def Switch.flag : Switch → Flag
  | verbose => ⟨"v", .truth⟩
  | log => ⟨"log", .truth⟩

/-- The flag of a parameter. -/
def Parameter.flag : Parameter → Flag
  | config => ⟨"config", .text⟩
  | solc => ⟨"solc", .text⟩
  | solcVersion => ⟨"solc-version", .text⟩

/-- A flag as it is given: alone, with its value behind `=`, or with its value as the next argument. -/
inductive Group where
  | on (f : Switch)
  | joined (f : Parameter) (value : String)
  | spaced (f : Parameter) (value : String) (h : value ≠ "--")

namespace Group

/-- The arguments that a flag takes. -/
def tokens : Group → List String
  | on f => ["-" ++ f.flag.name]
  | joined f value => ["-" ++ f.flag.name ++ "=" ++ value]
  | spaced f value _ => ["-" ++ f.flag.name, value]

/-- What a flag sets. -/
def setting : Group → Setting
  | on f => ⟨f.flag.name, .truth true⟩
  | joined f value => ⟨f.flag.name, .text value⟩
  | spaced f value _ => ⟨f.flag.name, .text value⟩

/-- The arguments of the command with a switch on. -/
def switchOn (a : Arguments) : Switch → Arguments
  | .verbose => { a with verbose := true }
  | .log => { a with logFile := true }

/-- The arguments of the command with a parameter set. -/
def setParameter (a : Arguments) (value : String) : Parameter → Arguments
  | .config => { a with configPath := value }
  | .solc => { a with solcPath := value }
  | .solcVersion => { a with solcVersion := value }

/-- The arguments of the command with a flag applied. -/
def applyTo (a : Arguments) : Group → Arguments
  | on f => switchOn a f
  | joined f value => setParameter a value f
  | spaced f value _ => setParameter a value f

end Group

@[simp] theorem classify_switch (f : Switch) :
    classify commonFlags ("-" ++ f.flag.name) = .setting ⟨f.flag.name, .truth true⟩ := by
  cases f <;> decide +kernel

@[simp] theorem classify_parameter (f : Parameter) : classify commonFlags ("-" ++ f.flag.name) = .awaiting f.flag := by
  cases f <;> decide +kernel

@[simp] theorem Parameter.read_eq (f : Parameter) (value : String) :
    f.flag.read value = .ok ⟨f.flag.name, .text value⟩ := by
  cases f <;> rfl

-- The name ends at the first `=`; the value may hold others.
@[simp] theorem classify_joined (f : Parameter) (value : String) :
    classify commonFlags ("-" ++ f.flag.name ++ "=" ++ value) = .setting ⟨f.flag.name, .text value⟩ := by
  have htext : ("-" ++ f.flag.name ++ "=" ++ value).toList = '-' :: (f.flag.name.toList ++ '=' :: value.toList) := by
    simp [String.toList_append]
  have hname : '=' ∉ f.flag.name.toList := by cases f <;> decide
  have hfind : commonFlags.find? (·.name == f.flag.name) = some f.flag := by cases f <;> decide +kernel
  have hsplit := splitValue_joined hname value.toList
  rw [String.ofList_toList, String.ofList_toList] at hsplit
  have hbody : flagArgument commonFlags (f.flag.name.toList ++ '=' :: value.toList) =
      .setting ⟨f.flag.name, .text value⟩ := by
    unfold flagArgument
    rw [hsplit]
    dsimp only
    rw [hfind]
    dsimp only
    rw [f.read_eq]
  obtain ⟨c, cs, hcs, hdash, hequal⟩ : ∃ c cs, f.flag.name.toList = c :: cs ∧ c ≠ '-' ∧ c ≠ '=' := by
    cases f <;> exact ⟨_, _, rfl, by decide⟩
  rw [hcs, List.cons_append] at htext hbody
  rw [classify_dash htext hdash hequal, hbody]

/-! ## Merging flags and positionals -/

@[simp] theorem Group.apply_setting (a : Arguments) (g : Group) : a.apply g.setting = g.applyTo a := by
  cases g with
  | on f => cases f <;> rfl
  | joined f value => cases f <;> rfl
  | spaced f value h => cases f <;> rfl

theorem applyAll_settings (groups : List Group) (a : Arguments) :
    a.applyAll (groups.map Group.setting) = groups.foldl Group.applyTo a := by
  rw [Arguments.applyAll, List.foldl_map]
  congr 1
  funext a g
  exact g.apply_setting a

-- A value other than `--` leaves the reader as it was before the flag.
theorem readLine_group (g : Group) (rest : List String) :
    readLine commonFlags true none false (g.tokens ++ rest) =
      (readLine commonFlags true none false rest).map (Line.set g.setting) := by
  cases g with
  | on f => exact readLine_setting (classify_switch f)
  | joined f value => exact readLine_setting (classify_joined f value)
  | spaced f value h =>
    have hread : readLine commonFlags true none false (("-" ++ f.flag.name) :: value :: rest) = _ :=
      readLine_value (classify_parameter f) (f.read_eq value)
    rw [beq_eq_false_iff_ne.mpr h] at hread
    exact hread

/-- The ways to put flags among positionals: both keep their order. -/
inductive Merge : List Group → List String → List String → Prop
  | nil : Merge [] [] []
  | flag {groups : List Group} {positionals arguments : List String} (g : Group)
    (h : Merge groups positionals arguments) : Merge (g :: groups) positionals (g.tokens ++ arguments)
  | positional {groups : List Group} {positionals arguments : List String} (p : String)
    (h : Merge groups positionals arguments) : Merge groups (p :: positionals) (p :: arguments)

theorem readMixed_merge {groups : List Group} {positionals arguments : List String}
    (h : Merge groups positionals arguments) (hpositionals : ∀ p ∈ positionals, IsPositional p) :
    readMixed commonFlags arguments = .ok ⟨groups.map Group.setting, positionals⟩ := by
  unfold readMixed
  induction h with
  | nil => rw [readLine]; rfl
  | flag g _ ih =>
    rw [readLine_group, ih hpositionals]
    rfl
  | positional p _ ih =>
    obtain ⟨hp, hrest⟩ := List.forall_mem_cons.mp hpositionals
    rw [readLine_positional (classify_eq_positional_iff.mpr hp), ih hrest]
    rfl

/-- Flags may stand anywhere among the positionals: each merge gives the positionals as they are and the flags applied
in their order, so two merges ask for the same. -/
theorem merge_makes_no_difference {groups : List Group} {positionals arguments arguments' : List String}
    (hpositionals : ∀ p ∈ positionals, IsPositional p) (h : Merge groups positionals arguments)
    (h' : Merge groups positionals arguments') :
    (∃ settings, readMixed commonFlags arguments = .ok ⟨settings, positionals⟩ ∧
      ∀ a : Arguments, a.applyAll settings = groups.foldl Group.applyTo a) ∧
    readMixed commonFlags arguments' = readMixed commonFlags arguments ∧
    ∀ palette, readSingle palette arguments' = readSingle palette arguments := by
  have hread := readMixed_merge h hpositionals
  have hread' := readMixed_merge h' hpositionals
  have hsame : readMixed commonFlags arguments' = readMixed commonFlags arguments := by rw [hread, hread']
  refine ⟨⟨_, hread, applyAll_settings groups⟩, hsame, ?_⟩
  intro palette
  unfold readSingle
  rw [hsame]

/-- Flags with a value that looks like a flag, with a value that holds `=` and `--`, and given twice. -/
def oddGroups : List Group :=
  [.on .verbose, .spaced .solc "-v" (by decide), .joined .config "a=--", .spaced .solc "" (by decide)]

theorem merge_makes_no_difference_oddTokens :
    (∀ p ∈ ["", "-", "in"], IsPositional p) ∧
    (∃ settings, readMixed commonFlags ["", "-v", "-", "-solc", "-v", "in", "-config=a=--", "-solc", ""] =
        .ok ⟨settings, ["", "-", "in"]⟩ ∧
      (Arguments.none .single).applyAll settings =
        { Arguments.none .single with configPath := "a=--", verbose := true }) ∧
    readMixed commonFlags ["-v", "-solc", "-v", "-config=a=--", "-solc", "", "", "-", "in"] =
      readMixed commonFlags ["", "-v", "-", "-solc", "-v", "in", "-config=a=--", "-solc", ""] := by
  have hpositionals : ∀ p ∈ ["", "-", "in"], IsPositional p := by decide
  have hmixed : Merge oddGroups ["", "-", "in"] ["", "-v", "-", "-solc", "-v", "in", "-config=a=--", "-solc", ""] :=
    .positional "" <| .flag _ <| .positional "-" <| .flag _ <| .positional "in" <| .flag _ <| .flag _ .nil
  have hfirst : Merge oddGroups ["", "-", "in"] ["-v", "-solc", "-v", "-config=a=--", "-solc", "", "", "-", "in"] :=
    .flag _ <| .flag _ <| .flag _ <| .flag _ <| .positional "" <| .positional "-" <| .positional "in" .nil
  obtain ⟨⟨settings, hread, happly⟩, hsame, -⟩ := merge_makes_no_difference hpositionals hmixed hfirst
  exact ⟨hpositionals, ⟨settings, hread, happly _⟩, hsame⟩

end SolidityAst.Cli
