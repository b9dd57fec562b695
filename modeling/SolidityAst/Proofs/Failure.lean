import Mathlib.Data.List.Basic
import SolidityAst.Batch.Summary
import SolidityAst.Ledger.Entry

/-!
Failures as chains of wrappings.

The causes that a failure holds are told rule by rule, one for the bottom of the chain and one for a wrapping.
There is exactly one of them, so the status in the ledger and the verdict of a batch both follow what the chain
holds.  Every wrapping that is made while something is being done has a text.
-/
namespace SolidityAst.Failure

/-- A failure holds a cause at the bottom of its wrappings. -/
inductive Holds (c : Cause) : Failure → Prop where
  | base : Holds c (.base c)
  | within {before after : String} {inner : Failure} : Holds c inner → Holds c (.within before inner after)

theorem holds_iff {c : Cause} {f : Failure} : f.Holds c ↔ f.cause = c := by
  induction f with
  | base cause =>
    constructor
    · intro h
      cases h
      rfl
    · rintro rfl
      exact .base
  | within before inner after ih =>
    constructor
    · intro h
      cases h with
      | within hinner => exact ih.mp hinner
    · intro h
      exact .within (ih.mpr h)

/-- A failure is about a source that was rejected. -/
def IsRejection (f : Failure) : Prop := ∃ rejection, f.Holds (.rejected rejection)

end SolidityAst.Failure
