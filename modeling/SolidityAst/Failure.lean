import SolidityAst.Ast.Diagnostic
import SolidityAst.FileTree.Error

/-!
Why an operation fails.

A failure is a cause, possibly told within the text of what was being done. Wrapping changes the
message and never the cause, so that whoever handles a failure can look through every wrapping.
-/
namespace SolidityAst

inductive Cause where
  | rejected (e : Ast.SyntaxError)
  | compilerNotFound
  | outsideInput
  | filesFailed
  | invalidArguments
  | helpRequested
  | canceled
  | deadlineExceeded
  | file (e : FileError)
  | exitStatus (status : Nat)
  | told (text : String)
  deriving DecidableEq, Repr

def Cause.message : Cause → String
  | rejected e => e.message
  | compilerNotFound => "solc binary not found"
  | outsideInput => "file is outside the input directory"
  | filesFailed => "some files failed to export"
  | invalidArguments => "invalid arguments"
  | helpRequested => "flag: help requested"
  | canceled => "context canceled"
  | deadlineExceeded => "context deadline exceeded"
  | file e => e.message
  | exitStatus status => s!"exit status {status}"
  | told text => text

inductive Failure where
  | base (cause : Cause)
  | within (before : String) (inner : Failure) (after : String)
  deriving DecidableEq, Repr

namespace Failure

def cause : Failure → Cause
  | base c => c
  | within _ inner _ => inner.cause

def message : Failure → String
  | base c => c.message
  | within before inner after => before ++ inner.message ++ after

/-- A failure that only its text tells. -/
def told (text : String) : Failure := base (.told text)

def during (doing : String) (inner : Failure) : Failure := within (doing ++ ": ") inner ""

def usage (problem : String) : Failure := within "" (base .invalidArguments) (": " ++ problem)

/-- The rejection of a source that a failure is about, if it is about one. -/
def syntaxError? (f : Failure) : Option Ast.SyntaxError :=
  match f.cause with
  | .rejected e => some e
  | _ => none

end Failure

end SolidityAst
