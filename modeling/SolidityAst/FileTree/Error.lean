/-!
What can go wrong with a file operation.
-/
namespace SolidityAst

inductive Errno where
  | noEntry
  | notDirectory
  | isDirectory
  | occupied
  | denied
  | linkLoop
  | badFormat
  deriving DecidableEq, Repr

def Errno.message : Errno → String
  | noEntry => "no such file or directory"
  | notDirectory => "not a directory"
  | isDirectory => "is a directory"
  | occupied => "file exists"
  | denied => "permission denied"
  | linkLoop => "too many levels of symbolic links"
  | badFormat => "exec format error"

/-- A file operation that was refused, the path it was about, and the reason. A renaming names both
paths. -/
structure FileError where
  operation : String
  path : String
  errno : Errno
  deriving DecidableEq, Repr

def FileError.message (e : FileError) : String :=
  e.operation ++ " " ++ e.path ++ ": " ++ e.errno.message

end SolidityAst
