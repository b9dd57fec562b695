import SolidityAst.Proofs.Ast.Outcome
import SolidityAst.Proofs.Source.Order

/-!
Which file the diagnostics of a rejection are about.

A compiler that loads imports may report errors in several files.  A parse asks whether an error has a place and never
in which file: every error makes a diagnostic, and its line and column are those of its offset in the source that was
parsed.  So the diagnostics are about that source exactly when all the errors are, and for an error in another file the
line and column are right only at its very start.
-/
namespace SolidityAst.Ast

open Solc Source

/-- The place of an error is in the source with the given name. -/
def LocatedIn (name : String) (e : ErrorEntry) : Prop := ∃ l, e.location = some l ∧ l.file = name

instance (name : String) (e : ErrorEntry) : Decidable (LocatedIn name e) :=
  decidable_of_iff ((e.location.map (·.file)) = some name) Option.map_eq_some_iff

/-! ## Naming other files -/

/-- An error whose place, if it has one, is said to be in another file. -/
def relocatedEntry (rename : ErrorLocation → String) (e : ErrorEntry) : ErrorEntry :=
  { e with location := e.location.map fun l => { l with file := rename l } }

/-- An answer whose errors are said to be in other files. -/
def relocated (rename : ErrorLocation → String) (r : Response) : Response :=
  { r with errors := r.errors.map (relocatedEntry rename) }

section

variable (rename : ErrorLocation → String) (path : String)

theorem relocatedEntry_of_none {e : ErrorEntry} (h : e.location = none) : relocatedEntry rename e = e := by
  obtain ⟨_, _, _, _, _, _, location⟩ := e
  cases h
  rfl

theorem location_relocatedEntry {e : ErrorEntry} {l : ErrorLocation} (h : e.location = some l) :
    (relocatedEntry rename e).location = some { l with file := rename l } := by
  rewrite [relocatedEntry, h]
  rfl

theorem judge_relocated (index : LineIndex) (found : List Diagnostic) (es : List ErrorEntry) :
    judge path index found (es.map (relocatedEntry rename)) = judge path index found es := by
  induction es generalizing found with
  | nil => rfl
  | cons e es ih =>
    rw [List.map_cons]
    by_cases he : e.isError = true
    · have he' : (relocatedEntry rename e).isError = true := he
      rw [judge_cons_of_isError path index found es he, judge_cons_of_isError path index found _ he']
      cases hloc : e.location with
      | none =>
        rw [relocatedEntry_of_none rename hloc, hloc]
      | some l =>
        rw [location_relocatedEntry rename hloc]
        exact ih _
    · have he' : ¬ (relocatedEntry rename e).isError = true := he
      rewrite [judge, judge, if_neg he, if_neg he', ih]
      rfl

/-- Which files the errors of an answer are said to be in makes no difference. -/
theorem conclude_relocated (source : Bytes) (binary : Binary) (r : Response) :
    conclude path source binary (relocated rename r) = conclude path source binary r := by
  unfold conclude relocated
  dsimp only
  rw [judge_relocated]

end

/-! ## Rejections -/

section

variable {chosen : Except Failure Binary} {runner : Option Runner} {stop : Bool} {path : String} {source : Bytes}

theorem conclude_of_rejected {binary : Binary} {r : Response} {rejection : SyntaxError}
    (h : (conclude path source binary r).2 = .error (.base (.rejected rejection))) :
    ∃ ds, rejection = ⟨path, some ds⟩ ∧ List.Forall₂ (Repeats (.ofSource source)) ds (blocking r) := by
  rcases blocking_cases r with ⟨e, he⟩ | ⟨hplaced, hne⟩ | hempty
  · rw [conclude_of_unplaced path source binary he] at h
    cases h
  · obtain ⟨ds, hds, hrepeats⟩ := conclude_of_placed path source binary hplaced hne
    rw [hds] at h
    cases h
    exact ⟨ds, rfl, hrepeats⟩
  · cases conclude_of_accepted_plain path source binary hempty h

-- Only an answer can reject a source.
theorem answer?_of_rejected {rejection : SyntaxError}
    (h : (parse chosen runner stop path source).outcome = .error (.base (.rejected rejection))) :
    ∃ binary r, answer? chosen runner stop path source = some (binary, r) ∧
      (conclude path source binary r).2 = .error (.base (.rejected rejection)) := by
  rcases parse_cases chosen runner stop path source with ⟨-, f, houtcome, hf⟩ | ⟨binary, r, hanswer, houtcome⟩
  · rw [houtcome] at h
    obtain ⟨doing, inner, rfl, -⟩ := hf
    cases h
  · exact ⟨binary, r, hanswer, houtcome.symm.trans h⟩

end

/-! ## Places in the file of an error -/

/-- A diagnostic gives the line and column at which an error starts, in the file that the error is in. -/
def PlacesIn (contents : String → Bytes) (d : Diagnostic) (e : ErrorEntry) : Prop :=
  ∃ l, e.location = some l ∧ d.line = ((LineIndex.ofSource (contents l.file)).position l.start).line ∧
    d.column = ((LineIndex.ofSource (contents l.file)).position l.start).column

/-- An error is at the very start of its file. -/
def AtStart (e : ErrorEntry) : Prop := ∃ l, e.location = some l ∧ l.start ≤ 0

/-- With the line and column of its error's offset in the source, a diagnostic is right about the file of the error,
whatever other files hold, if this file is the source, or at its start. -/
theorem Repeats.placesIn_iff {source : Bytes} {d : Diagnostic} {e : ErrorEntry} (h : Repeats (.ofSource source) d e)
    (name : String) :
    (∀ contents, contents name = source → PlacesIn contents d e) ↔ LocatedIn name e ∨ AtStart e := by
  obtain ⟨l, hloc, rfl⟩ := h
  constructor
  · intro hplaces
    by_contra hnot
    have hfile : l.file ≠ name := fun hfile => hnot (.inl ⟨l, hloc, hfile⟩)
    have hstart : 0 < l.start := by
      by_contra hstart
      exact hnot (.inr ⟨l, hloc, Int.not_lt.mp hstart⟩)
    -- The other file can be such that the offset has another position in it.
    obtain ⟨other, hother⟩ :=
      LineIndex.exists_position_ne hstart ((LineIndex.ofSource source).position l.start)
    obtain ⟨l', hloc', hline, hcolumn⟩ :=
      hplaces (fun file => if file = name then source else other) (if_pos rfl)
    obtain rfl := Option.some.inj (hloc.symm.trans hloc')
    dsimp only at hline hcolumn
    rw [if_neg hfile, Int.natCast_inj] at hline hcolumn
    exact hother (congrArg₂ Position.mk hline.symm hcolumn.symm)
  · rintro (⟨l', hloc', hfile⟩ | ⟨l', hloc', hstart⟩) contents hcontents
    · obtain rfl := Option.some.inj (hloc.symm.trans hloc')
      rw [← hcontents, ← hfile]
      exact ⟨l, hloc, rfl, rfl⟩
    · obtain rfl := Option.some.inj (hloc.symm.trans hloc')
      refine ⟨l, hloc, ?_⟩
      rw [LineIndex.position_of_nonpos hstart, LineIndex.position_of_nonpos hstart]
      exact ⟨rfl, rfl⟩

section

variable {α β ι : Type} {R : α → β → Prop} {P : β → Prop} {as : List α} {bs : List β}

-- Two lists that go together, seen from the second.
theorem forall₂_and_iff (h : List.Forall₂ R as bs) :
    List.Forall₂ (fun a b => R a b ∧ P b) as bs ↔ ∀ b ∈ bs, P b := by
  induction h with
  | nil => simp
  | cons hab _ ih =>
    rw [List.forall₂_cons, ih, List.forall_mem_cons]
    simp [hab]

theorem forall_forall₂_iff {Q : ι → Prop} {S : ι → α → β → Prop} (h : List.Forall₂ R as bs)
    (hS : ∀ a b, R a b → ((∀ i, Q i → S i a b) ↔ P b)) :
    (∀ i, Q i → List.Forall₂ (S i) as bs) ↔ ∀ b ∈ bs, P b := by
  induction h with
  | nil => simp
  | cons hab _ ih =>
    rw [List.forall_mem_cons, ← ih, ← hS _ _ hab]
    simp only [List.forall₂_cons, forall_and]

end

/-- The diagnostics of a rejection go with the errors of the answer one by one.  Each has the line and column of its
error's offset in the source that was parsed, whichever file the error is in, and would have the same with any other
file.  So all of them come from errors in that source exactly when all the errors of the answer are in it, and they are
right about the files of their errors, whatever these hold, exactly when every error is in that source or at the start
of its file. -/
theorem diagnostics_belong_iff (chosen : Except Failure Binary) (runner : Option Runner) (stop : Bool) (path : String)
    (source : Bytes) (rejection : SyntaxError)
    (h : (parse chosen runner stop path source).outcome = .error (.base (.rejected rejection))) :
    ∃ binary r ds, answer? chosen runner stop path source = some (binary, r) ∧
      rejection = ⟨path, some ds⟩ ∧ List.Forall₂ (Repeats (.ofSource source)) ds (blocking r) ∧
      (∀ rename, (conclude path source binary (relocated rename r)).2 = .error (.base (.rejected rejection))) ∧
      (List.Forall₂ (fun d e => Repeats (.ofSource source) d e ∧ LocatedIn (Path.base path) e) ds (blocking r) ↔
        ∀ e ∈ blocking r, LocatedIn (Path.base path) e) ∧
      ((∀ contents, contents (Path.base path) = source → List.Forall₂ (PlacesIn contents) ds (blocking r)) ↔
        ∀ e ∈ blocking r, LocatedIn (Path.base path) e ∨ AtStart e) := by
  obtain ⟨binary, r, hanswer, hconclude⟩ := answer?_of_rejected h
  obtain ⟨ds, hrejection, hrepeats⟩ := conclude_of_rejected hconclude
  refine ⟨binary, r, ds, hanswer, hrejection, hrepeats, fun rename => ?_, forall₂_and_iff hrepeats,
    forall_forall₂_iff hrepeats fun d e hde => hde.placesIn_iff (Path.base path)⟩
  rw [conclude_relocated]
  exact hconclude

-- The second error is at offset 40 of an imported file; the source that is parsed has 14 bytes.
def importingSource : Bytes := Text.Utf8.encode "contract A \x7b\n\x7d"

def ownError : ErrorEntry := ⟨"", "", "", "here", "error", "ParserError", some ⟨"A.sol", 0, 1⟩⟩

def importedError : ErrorEntry := ⟨"", "", "", "there", "error", "TypeError", some ⟨"B.sol", 40, 41⟩⟩

def twoFileAnswer : Bytes :=
  Text.Utf8.encode <|
    "\x7b\"errors\":[\x7b\"severity\":\"error\",\"type\":\"ParserError\",\"message\":\"here\","
      ++ "\"sourceLocation\":\x7b\"file\":\"A.sol\",\"start\":0,\"end\":1\x7d\x7d,"
      ++ "\x7b\"severity\":\"error\",\"type\":\"TypeError\",\"message\":\"there\","
      ++ "\"sourceLocation\":\x7b\"file\":\"B.sol\",\"start\":40,\"end\":41\x7d\x7d]\x7d"

def twoFileParse : Parsed :=
  parse (.ok ⟨"solc", "0.7.6"⟩) (some fun _ _ => .ok twoFileAnswer) true "in/A.sol" importingSource

def twoFileRejection : SyntaxError :=
  ⟨"in/A.sol", some [⟨"error", "ParserError", "", "here", "", 1, 0⟩, ⟨"error", "TypeError", "", "there", "", 2, 1⟩]⟩

theorem answer?_twoFile :
    answer? (.ok ⟨"solc", "0.7.6"⟩) (some fun _ _ => .ok twoFileAnswer) true "in/A.sol" importingSource =
      some (⟨"solc", "0.7.6"⟩, ⟨[ownError, importedError], []⟩) := by
  decide +kernel

theorem blocking_twoFile : blocking ⟨[ownError, importedError], []⟩ = [ownError, importedError] := by
  decide +kernel

theorem conclude_twoFile :
    (conclude "in/A.sol" importingSource ⟨"solc", "0.7.6"⟩ ⟨[ownError, importedError], []⟩).2 =
      .error (.base (.rejected twoFileRejection)) := by
  have hkind : (conclude "in/A.sol" importingSource ⟨"solc", "0.7.6"⟩ ⟨[ownError, importedError], []⟩).2.map
      (fun _ => ()) = .error (.base (.rejected twoFileRejection)) := by
    decide +kernel
  cases hconclude : (conclude "in/A.sol" importingSource ⟨"solc", "0.7.6"⟩ ⟨[ownError, importedError], []⟩).2 with
  | error f =>
    rw [hconclude] at hkind
    rw [Except.error.inj hkind]
  | ok tree =>
    rw [hconclude] at hkind
    cases hkind

theorem outcome_twoFile : twoFileParse.outcome = .error (.base (.rejected twoFileRejection)) := by
  rcases parse_cases (.ok ⟨"solc", "0.7.6"⟩) (some fun _ _ => .ok twoFileAnswer) true "in/A.sol" importingSource with
    ⟨hnone, -⟩ | ⟨binary, r, hanswer, houtcome⟩
  · rw [answer?_twoFile] at hnone
    cases hnone
  · have hpair := Option.some.inj (hanswer.symm.trans answer?_twoFile)
    rw [Prod.mk.injEq] at hpair
    rw [twoFileParse, houtcome, hpair.1, hpair.2]
    exact conclude_twoFile

/-- The second diagnostic repeats an error in an imported file and none in the source, and still gives a line and a
column of the source. -/
theorem imported_error_misplaced :
    ∃ binary r d, answer? (.ok ⟨"solc", "0.7.6"⟩) (some fun _ _ => .ok twoFileAnswer) true "in/A.sol"
          importingSource = some (binary, r) ∧
      twoFileParse.outcome = .error (.base (.rejected twoFileRejection)) ∧
      d ∈ twoFileRejection.diagnostics.getD [] ∧ d.line = 2 ∧ d.column = 1 ∧
      ∀ e ∈ blocking r, Repeats (.ofSource importingSource) d e → ¬ LocatedIn (Path.base "in/A.sol") e := by
  refine ⟨_, _, ⟨"error", "TypeError", "", "there", "", 2, 1⟩, answer?_twoFile, outcome_twoFile, by decide, rfl, rfl,
    ?_⟩
  rw [blocking_twoFile]
  rintro e he ⟨l, -, hrepeats⟩
  rcases List.mem_cons.mp he with rfl | he
  · have hmessage : "there" = "here" := congrArg Diagnostic.message hrepeats
    exact absurd hmessage (by decide)
  · rw [List.mem_singleton.mp he]
    decide

theorem diagnostics_belong_iff_twoFile :
    ∃ ds, twoFileRejection = ⟨"in/A.sol", some ds⟩ ∧
      (∀ rename, (conclude "in/A.sol" importingSource ⟨"solc", "0.7.6"⟩
        (relocated rename ⟨[ownError, importedError], []⟩)).2 = .error (.base (.rejected twoFileRejection))) ∧
      ¬ ∀ contents, contents "A.sol" = importingSource →
        List.Forall₂ (PlacesIn contents) ds [ownError, importedError] := by
  obtain ⟨binary, r, ds, hanswer, hrejection, -, hsame, -, hplaces⟩ :=
    diagnostics_belong_iff _ _ _ _ _ _ outcome_twoFile
  have hpair := Option.some.inj (hanswer.symm.trans answer?_twoFile)
  rw [Prod.mk.injEq] at hpair
  obtain ⟨rfl, rfl⟩ := hpair
  have hbase : Path.base "in/A.sol" = "A.sol" := by decide
  rw [hbase, blocking_twoFile] at hplaces
  refine ⟨ds, hrejection, hsame, fun hall => ?_⟩
  rcases hplaces.mp hall importedError (by simp) with ⟨l, hloc, hfile⟩ | ⟨l, hloc, hstart⟩
  · obtain rfl := Option.some.inj hloc
    exact absurd hfile (by decide)
  · obtain rfl := Option.some.inj hloc
    exact absurd hstart (by decide)

end SolidityAst.Ast
