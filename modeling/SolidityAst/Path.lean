import SolidityAst.Text.Fields

/-!
Paths as texts.

These operations never look at a file: they work on the names between the slashes. A cleaned path has
no empty names, no `.` and no `..` that could be resolved.
-/
namespace SolidityAst.Path

open Text

def isAbsolute (p : String) : Bool := p.toList.head? == some '/'

/-- The names of a path between its slashes, empty ones included. -/
def names (p : String) : List String := fields '/' p

/-- Takes one more name onto the cleaned names before it, last name first. -/
def cleanStep (rooted : Bool) (before : List String) (name : String) : List String :=
  if name = "" || name = "." then before
  else if name = ".." then
    match before with
    | [] => if rooted then [] else [".."]
    | last :: rest => if last = ".." then ".." :: last :: rest else rest
  else name :: before

def cleanNames (p : String) : List String :=
  ((names p).foldl (cleanStep (isAbsolute p)) []).reverse

def ofNames (rooted : Bool) (ns : List String) : String :=
  if rooted then "/" ++ "/".intercalate ns
  else if ns.isEmpty then "."
  else "/".intercalate ns

/-- The shortest path with the same meaning, as far as the text tells. -/
def clean (p : String) : String := ofNames (isAbsolute p) (cleanNames p)

/-- The cleaned path of several after one another; empty ones at the start do not count. -/
def join (ps : List String) : String :=
  match ps.dropWhile (· == "") with
  | [] => ""
  | ps => clean ("/".intercalate ps)

/-- The absolute cleaned path, seen from the directory `cwd`. -/
def absolute (cwd p : String) : String :=
  if isAbsolute p then clean p else join [cwd, p]

/-- The last name of a path; `.` for an empty path and `/` for slashes only. -/
def base (p : String) : String :=
  if p = "" then "."
  else
    match dropEndSlashes p.toList with
    | [] => "/"
    | cs => String.ofList (cs.reverse.takeWhile (· != '/')).reverse
where
  /-- Drops the slashes at the end. -/
  dropEndSlashes (cs : List Char) : List Char := (cs.reverse.dropWhile (· == '/')).reverse

def splitLast (p : String) : String × String :=
  let back := p.toList.reverse
  (String.ofList (back.dropWhile (· != '/')).reverse,
    String.ofList (back.takeWhile (· != '/')).reverse)

def dir (p : String) : String := clean (splitLast p).1

def dropShared : List String → List String → List String × List String
  | a :: as, b :: bs => if a = b then dropShared as bs else (a :: as, b :: bs)
  | as, bs => (as, bs)

/-- The path from a directory to another place, up and then down. Both start at the root or neither does. -/
def relative (fromDir place : String) : String :=
  let (up, down) := dropShared (cleanNames fromDir) (cleanNames place)
  ofNames false (up.map (fun _ => "..") ++ down)

/-- The path one level up as directory creation takes it: without the last name and the slash before
it. Slashes at the end do not count. -/
def parent? (p : String) : Option String :=
  let back := (p.toList.reverse.dropWhile (· == '/')).dropWhile (· != '/')
  match back with
  | [] | [_] => none
  | _ :: rest => some (String.ofList rest.reverse)

/-- A path and those above it, the path itself first. -/
def upward : (fuel : Nat) → String → List String
  | 0, p => [p]
  | fuel + 1, p =>
    match parent? p with
    | none => [p]
    | some q => p :: upward fuel q

end SolidityAst.Path
