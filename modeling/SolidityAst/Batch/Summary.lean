import SolidityAst.Failure
import SolidityAst.Text.Duration

/-!
What came of a batch.
-/
namespace SolidityAst.Batch

open Text

structure FailedFile where
  path : String
  failure : Failure
  deriving DecidableEq, Repr

/-- The counts of a batch and the files that failed. Files that were skipped are in neither count. -/
structure Summary where
  total : Nat
  succeeded : Nat
  failed : List FailedFile
  duration : Duration
  deriving DecidableEq, Repr

namespace Summary

def start (total : Nat) : Summary := ⟨total, 0, [], ⟨0⟩⟩

def record (s : Summary) (path : String) : Except Failure String → Summary
  | .ok _ => { s with succeeded := s.succeeded + 1 }
  | .error f => { s with failed := s.failed ++ [⟨path, f⟩] }

def sorted (s : Summary) : Summary :=
  { s with failed := s.failed.mergeSort fun a b => a.path ≤ b.path }

def failure? (s : Summary) : Option Failure :=
  if s.failed.isEmpty then none
  else some (.within "" (.base .filesFailed) s!": {s.failed.length} of {s.total}")

end Summary

end SolidityAst.Batch
