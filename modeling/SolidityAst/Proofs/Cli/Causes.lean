import SolidityAst.Cli.Run
import SolidityAst.Proofs.Ast.Outcome
import SolidityAst.Proofs.Export.Independence
import SolidityAst.Proofs.Solc.Session

/-!
What the program can report of an export.

A file is reported to lie outside the input directory by the choice of its output path and by nothing else: not
while it is read, not while a compiler is looked for, started or answers, and not while the artifact is written.
-/
namespace SolidityAst

/-- The failure is not about a file outside the input directory. -/
def Failure.Inside (f : Failure) : Prop := f.cause ≠ .outsideInput

namespace Failure

theorem Inside.of_error {α : Type} {f g : Failure} (hg : g.Inside)
    (h : (.error g : Except Failure α) = .error f) : f.Inside :=
  Except.error.inj h ▸ hg

-- Wrapping changes the text alone.
theorem Inside.during {f : Failure} (h : f.Inside) (doing : String) : (during doing f).Inside := h

theorem Inside.within {f : Failure} (h : f.Inside) (before after : String) : (within before f after).Inside := h

theorem inside_base {c : Cause} (h : c ≠ .outsideInput) : (base c).Inside := h

theorem inside_told (text : String) : (told text).Inside := inside_base (by simp)

theorem inside_file (e : FileError) : (base (.file e)).Inside := inside_base (by simp)

end Failure

open Failure Host

/-! ## Programs and compilers -/

section

variable {m : Machine} {t : FileTree} {f : Failure}

theorem inside_of_find {name : String} (h : m.find t name = .error f) : f.Inside := by
  unfold Machine.find at h
  dsimp only at h
  split at h
  · exact (inside_told _).of_error h
  · split at h
    · exact (inside_told _).of_error h
    · split at h
      · cases h
      · exact (inside_told _).of_error h

theorem inside_of_run {cancelled : Bool} {command : String} {arguments : List String} {input : Bytes}
    (h : (m.run t cancelled command arguments input).1 = .error f) : f.Inside := by
  unfold Machine.run at h
  split at h
  · rename_i e hpath
    obtain rfl := Except.error.inj h
    unfold Machine.commandPath at hpath
    split at hpath
    · exact inside_of_find hpath
    · split at hpath
      · exact (inside_told _).of_error hpath
      · cases hpath
  · split at h
    · exact (inside_base (by decide)).of_error h
    · split at h
      · exact (inside_file _).of_error h
      · split at h
        · exact (inside_file _).of_error h
        · cases h

theorem inside_of_execute {patience : Solc.Patience} {binary : Solc.Binary} {request : Solc.Request}
    (h : Solc.execute m t patience binary request = .error f) : f.Inside := by
  unfold Solc.execute at h
  dsimp only at h
  split at h
  · exact ((inside_base (by decide)).during _).of_error h
  · split at h
    · rename_i e hrun
      exact ((inside_of_run hrun).within _ _).of_error h
    · split at h
      · exact ((inside_base (by decide)).during _).of_error h
      · split at h
        · exact ((inside_base (by simp)).within _ _).of_error h
        · cases h

end

section

variable {f : Failure}

theorem inside_of_response {raw : Bytes} (h : Solc.Response.parse raw = .error f) : f.Inside := by
  unfold Solc.Response.parse at h
  split at h
  · exact (inside_told _).of_error h
  · split at h
    · cases h
    · exact ((inside_told _).during _).of_error h

theorem inside_of_compile {run : Solc.Runner} {binary : Solc.Binary} {request : Solc.Request}
    (hrun : ∀ f, run binary request = .error f → f.Inside)
    (h : Solc.compile (some run) binary request = .error f) : f.Inside := by
  unfold Solc.compile at h
  dsimp only at h
  cases hanswer : run binary request with
  | error e =>
    rw [hanswer] at h
    exact (hrun e hanswer).of_error h
  | ok raw =>
    rw [hanswer] at h
    exact inside_of_response h

theorem inside_of_conclude {path : String} {source : Bytes} {binary : Solc.Binary} {r : Solc.Response}
    (h : (Ast.conclude path source binary r).2 = .error f) : f.Inside := by
  rcases Ast.blocking_cases r with ⟨entry, hentry⟩ | ⟨hplaced, hne⟩ | hempty
  · rw [Ast.conclude_of_unplaced path source binary hentry] at h
    exact (inside_told _).of_error h
  · obtain ⟨ds, hds, -⟩ := Ast.conclude_of_placed path source binary hplaced hne
    rw [hds] at h
    exact (inside_base (by simp)).of_error h
  · rw [Ast.conclude_of_accepted path source binary hempty] at h
    split at h
    · exact (inside_told _).of_error h
    · split at h
      · exact ((inside_told _).during _).of_error h
      · cases h

theorem inside_of_parse {chosen : Except Failure Solc.Binary} {run : Solc.Runner} {stop : Bool} {path : String}
    {source : Bytes} (hchosen : ∀ f, chosen = .error f → f.Inside)
    (hrun : ∀ binary request f, run binary request = .error f → f.Inside)
    (h : (Ast.parse chosen (some run) stop path source).outcome = .error f) : f.Inside := by
  rcases Ast.parse_cases chosen (some run) stop path source with
    ⟨-, f', houtcome, doing, inner, hf', hcause⟩ | ⟨binary, r, -, houtcome⟩
  · rw [houtcome] at h
    rw [← Except.error.inj h, hf']
    show inner.Inside
    rcases hcause with hunchosen | ⟨binary, request, -, hcompile⟩
    · exact hchosen inner hunchosen
    · exact inside_of_compile (hrun binary request) hcompile
  · rw [houtcome] at h
    exact inside_of_conclude h

-- What goes wrong with a version is only logged, and then the search path decides.
theorem inside_of_resolve {tc : Solc.Toolchain} {s : Solc.Surroundings} {t : FileTree} {source : Bytes}
    (h : (tc.resolve s t source).outcome = .error f) : f.Inside := by
  have hmissing : (Failure.base .compilerNotFound).Inside := inside_base (by decide)
  have hfallback : ∀ {t version}, Solc.Toolchain.fallback s t version = .error f → f.Inside := by
    intro t version hnone
    unfold Solc.Toolchain.fallback at hnone
    split at hnone
    · cases hnone
    · exact (hmissing.during _).of_error hnone
  by_cases hpath : tc.options.path = ""
  · rw [(Solc.resolve_of_no_path s t source hpath).2.2.2] at h
    split at h
    · cases h
    · exact hfallback h
  · unfold Solc.Toolchain.resolve at h
    dsimp only at h
    rw [if_pos hpath] at h
    split at h
    · cases h
    · exact (hmissing.during _).of_error h

end

/-! ## An export -/

namespace Export

variable {e : Exporter} {site : Site} {t : FileTree} {file input output : String} {f : Failure}

theorem inside_of_readSource {cwd : Place} (h : readSource t cwd file = .error f) : f.Inside := by
  unfold readSource at h
  split at h
  · exact ((inside_file _).during _).of_error h
  · split at h
    · cases h
    · exact (inside_told _).of_error h

theorem inside_of_placeFile {cwd : Place} {tag path : String} {content : Bytes}
    (h : (placeFile t cwd tag path content).1 = .error f) : f.Inside := by
  unfold placeFile at h
  split at h
  · exact ((inside_file _).during _).of_error h
  · unfold replaceFile at h
    dsimp only at h
    split at h
    · exact ((inside_file _).during _).of_error h
    · split at h
      · exact ((inside_file _).during _).of_error h
      · cases h

theorem inside_of_tryEncode {indent : String} {root : Json} (h : tryEncode indent root = .error f) : f.Inside := by
  unfold tryEncode at h
  split at h
  · exact (inside_told _).of_error h
  · cases h

theorem inside_of_place {target : String} {tree : Ast.Tree} {t' : FileTree}
    (htarget : outputPath site.cwdPath e.naming file input output = .ok target)
    (h : e.place site t file input output tree = (.error f, t')) : f.Inside := by
  have h := congrArg Prod.fst h
  unfold Exporter.place at h
  rw [htarget] at h
  dsimp only at h
  split at h
  · rename_i f' hencode
    exact ((inside_of_tryEncode hencode).during _).of_error h
  · split at h
    · rename_i f' t'' hplace
      exact (inside_of_placeFile (congrArg Prod.fst hplace)).of_error h
    · cases h

/-- A file that has an output path is reported to lie outside only if its parser says so. -/
theorem inside_of_exportFile {parser : Parser} {target : String} (hparser : e.parser = some parser)
    (htarget : outputPath site.cwdPath e.naming file input output = .ok target)
    (hparse : ∀ source f, (parser file source).outcome = .error f → f.Inside)
    (h : (e.exportFile site t file input output).result = .error f) : f.Inside := by
  rw [exportFile_result] at h
  cases hread : readSource t site.cwd file with
  | error e' =>
    rw [attempt_unread site hparser hread] at h
    exact (inside_of_readSource hread).of_error h
  | ok source =>
  cases hparsed : (parser file source).outcome with
  | error e' =>
    rw [attempt_unparsed site hparser hread hparsed] at h
    exact (hparse source e' hparsed).of_error h
  | ok tree =>
  rcases hplace : e.place site t file input output tree with ⟨e' | target', t'⟩
  · rw [attempt_unplaced site hparser hread hparsed hplace] at h
    exact (inside_of_place htarget hplace).of_error h
  · obtain ⟨events, hattempt⟩ := attempt_placed site hparser hread hparsed hplace
    rw [hattempt] at h
    cases h

end Export

namespace Cli.Job

section

variable {j : Job} {file input output target : String} {f : Failure}
  (htarget : Export.outputPath (Export.Site.cwdPath ⟨j.machine.cwd, j.tag⟩)
    ⟨j.settings.output.extension, j.settings.output.suffix⟩ file input output = .ok target)

include htarget

theorem inside_of_exporter {t t' : FileTree} {chosen : Except Failure Solc.Binary}
    (hchosen : ∀ f, chosen = .error f → f.Inside)
    (h : ((j.exporter t chosen).exportFile ⟨j.machine.cwd, j.tag⟩ t' file input output).result = .error f) :
    f.Inside := by
  have hparser : (j.exporter t chosen).parser = some (j.parser t chosen) := rfl
  apply Export.inside_of_exportFile hparser htarget _ h
  intro source f hf
  unfold parser at hf
  apply inside_of_parse hchosen _ hf
  intro binary request f hexecute
  exact inside_of_execute hexecute

/-- The program reports no file to lie outside that has an output path. -/
theorem inside_of_exporting {session : Session}
    (h : (j.exporting input output session file).outcome = .error f) : f.Inside := by
  have hresult : (j.exportFile session file input output).1.result = .error f := by
    unfold exporting at h
    dsimp only at h
    generalize (j.exportFile session file input output).1.result = result at h ⊢
    cases result with
    | error e => rw [Except.error.inj h]
    | ok r => cases h
  unfold exportFile at hresult
  dsimp only at hresult
  split at hresult
  · rename_i e hread
    apply inside_of_exporter htarget _ hresult
    intro f hf
    exact (Export.inside_of_readSource hread).of_error hf
  · apply inside_of_exporter htarget _ hresult
    intro f hf
    exact inside_of_resolve hf

end

end Cli.Job

end SolidityAst
