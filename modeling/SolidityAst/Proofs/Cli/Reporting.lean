import SolidityAst.Batch.Summary
import SolidityAst.Cli.Report
import SolidityAst.Proofs.Ast.DiagnosticText
import SolidityAst.Proofs.Failure

/-!
What the program says of the failure with which it ends.

The report follows the cause below all wrappings.  The texts of the wrappings are shown, all of them, where the
cause has no report of its own, and nowhere else.
-/
namespace SolidityAst

/-! ## Wrapping -/

namespace Failure

variable {f : Failure} {texts : List String}

/-- A failure with texts before it, the first of them outermost. -/
def wrapped (texts : List String) (f : Failure) : Failure := texts.foldr (fun text inner => .within text inner "") f

@[simp] theorem cause_wrapped (texts : List String) (f : Failure) : (f.wrapped texts).cause = f.cause := by
  induction texts with
  | nil => rfl
  | cons text texts ih => exact ih

@[simp] theorem message_wrapped (texts : List String) (f : Failure) :
    (f.wrapped texts).message = String.join texts ++ f.message := by
  induction texts with
  | nil => simp [wrapped]
  | cons text texts ih =>
    have hinner : (f.wrapped (text :: texts)).message = text ++ (f.wrapped texts).message ++ "" := rfl
    rw [hinner, ih, String.append_empty, String.join_cons, String.append_assoc]

@[simp] theorem holds_wrapped_iff {c : Cause} : (f.wrapped texts).Holds c ↔ f.Holds c := by
  simp [holds_iff]

theorem holds_filesFailed_of_failure? {s : Batch.Summary} (h : s.failure? = some f) : f.Holds .filesFailed := by
  unfold Batch.Summary.failure? at h
  split at h
  · cases h
  · obtain rfl := Option.some.inj h
    exact .within .base

end Failure

/-! ## Reports -/

namespace Cli

open Ast Failure Json Text

variable {f : Failure} {e : SyntaxError}

theorem report_of_canceled (h : f.Holds .canceled) : report f = (130, "") := by
  rw [report, holds_iff.mp h]

theorem report_of_filesFailed (h : f.Holds .filesFailed) : report f = (1, "") := by
  rw [report, holds_iff.mp h]

theorem report_of_rejected (h : f.Holds (.rejected e)) :
    report f = (1, "Parsing error: " ++ e.path ++ "\n" ++ indented .html "  " e.toJson ++ "\n") := by
  rw [report, holds_iff.mp h]
  simp only [line, String.append_assoc]

theorem report_of_other (hcanceled : ¬ f.Holds .canceled) (hrejected : ¬ f.IsRejection)
    (hfiles : ¬ f.Holds .filesFailed) : report f = (1, "Error: " ++ f.message ++ "\n") := by
  rw [holds_iff] at hcanceled hfiles
  unfold report
  split
  · exact absurd ‹_› hcanceled
  · exact absurd ⟨_, holds_iff.mpr ‹_›⟩ hrejected
  · exact absurd ‹_› hfiles
  · rfl

theorem report_status (h : ¬ f.Holds .canceled) : (report f).1 = 1 := by
  by_cases hrejected : f.IsRejection
  · obtain ⟨e, he⟩ := hrejected
    rw [report_of_rejected he]
  by_cases hfiles : f.Holds .filesFailed
  · rw [report_of_filesFailed hfiles]
  · rw [report_of_other h hrejected hfiles]

theorem indented_null (h : e.diagnostics = none) : indented .html "  " e.toJson = "null" := by
  rw [SyntaxError.toJson, h]
  decide

/-- Cancelled work is silent and has a status of its own.  A rejected source is shown by its path and a JSON text from
which its diagnostics are read back, as if nothing were around it.  Files that failed are not shown again, and
anything else is shown by its whole text, to which every wrapping adds its own. -/
theorem report_sees_through (f : Failure) :
    (report f = (130, "") ↔ f.Holds .canceled) ∧
      (¬ f.Holds .canceled → (report f).1 = 1) ∧
      (∀ e, f.Holds (.rejected e) → ∃ text,
        report f = (1, "Parsing error: " ++ e.path ++ "\n" ++ text ++ "\n") ∧
        readDiagnostics? text = some e.diagnostics ∧ (e.diagnostics = none → text = "null") ∧
        report f = report (.base (.rejected e))) ∧
      (f.Holds .filesFailed → report f = (1, "")) ∧
      (∀ s : Batch.Summary, s.failure? = some f → f.Holds .filesFailed) ∧
      (¬ f.Holds .canceled → ¬ f.IsRejection → ¬ f.Holds .filesFailed →
        report f = (1, "Error: " ++ f.message ++ "\n")) ∧
      ∀ texts, (∀ c, (f.wrapped texts).Holds c ↔ f.Holds c) ∧
        (f.wrapped texts).message = String.join texts ++ f.message := by
  refine ⟨⟨fun h => ?_, report_of_canceled⟩, report_status, fun e he => ?_, report_of_filesFailed,
    fun s hs => holds_filesFailed_of_failure? hs, report_of_other,
    fun texts => ⟨fun c => holds_wrapped_iff, message_wrapped texts f⟩⟩
  · refine Classical.byContradiction fun hcanceled => ?_
    have hstatus := report_status hcanceled
    rw [h] at hstatus
    cases hstatus
  · refine ⟨_, report_of_rejected he, readDiagnostics?_indented .html e, indented_null, ?_⟩
    rw [report_of_rejected he, report_of_rejected .base]

/-- A rejection with characters that are escaped, below two texts, beside a batch with a failed file below one text and
a timeout that is told in full. -/
theorem report_sees_through_texts :
    let d : Diagnostic := ⟨"error", "ParserError", "", "Expected '<' & \"x\"", "", 3, 0⟩
    let rejection : Failure := (Failure.base (.rejected ⟨"in/A.sol", some [d, d]⟩)).wrapped ["a: ", "b: "]
    let batch : Batch.Summary := ⟨2, 1, [⟨"in/A.sol", rejection⟩], ⟨0⟩⟩
    let timeout : Failure := (Failure.base .deadlineExceeded).wrapped ["a: ", "b: "]
    (∃ text, report rejection = (1, "Parsing error: in/A.sol\n" ++ text ++ "\n") ∧
        readDiagnostics? text = some (some [d, d])) ∧
      (∃ f, batch.failure? = some f ∧ report (f.wrapped ["a: "]) = (1, "")) ∧
      report timeout = (1, "Error: a: b: context deadline exceeded\n") := by
  intro d rejection batch timeout
  refine ⟨?_, ⟨_, rfl, ?_⟩, ?_⟩
  · obtain ⟨text, htext, hread, -⟩ := (report_sees_through rejection).2.2.1 _ (holds_iff.mpr rfl)
    exact ⟨text, htext, hread⟩
  · exact (report_sees_through _).2.2.2.1 (holds_iff.mpr rfl)
  · have hcause : timeout.cause = .deadlineExceeded := rfl
    have hother (c : Cause) (hc : c ≠ .deadlineExceeded) : ¬ timeout.Holds c :=
      fun h => hc (hcause ▸ holds_iff.mp h).symm
    have hrejected : ¬ timeout.IsRejection := fun ⟨e, h⟩ => hother (.rejected e) nofun h
    exact (report_sees_through timeout).2.2.2.2.2.1 (hother _ nofun) hrejected (hother _ nofun)

end Cli

end SolidityAst
