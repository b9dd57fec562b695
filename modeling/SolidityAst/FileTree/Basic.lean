import SolidityAst.Assoc
import SolidityAst.FileTree.Error
import SolidityAst.Path
import SolidityAst.Text.Utf8

/-!
A file system as a value.

The tree maps absolute places, lists of names from the root, to nodes. Looking up a path goes from a
directory name by name and follows symbolic links, up to forty in one look-up. The entries are kept in
increasing order of places.
-/
namespace SolidityAst

inductive Node where
  | file (content : Bytes) (executable : Bool)
  | directory
  | link (target : String)
  deriving DecidableEq, Repr

def Node.isDirectory : Node → Bool
  | directory => true
  | _ => false

/-- A place: the names from the root. -/
abbrev Place := List String

structure FileTree where
  entries : List (Place × Node)
  deriving DecidableEq, Repr

namespace FileTree

def empty : FileTree := ⟨[]⟩

/-- The node at a place; the root is always a directory. -/
def get? (t : FileTree) (place : Place) : Option Node :=
  if place = [] then some .directory else Assoc.find? place t.entries

def insert (t : FileTree) (place : Place) (node : Node) : FileTree :=
  ⟨Assoc.insert place node t.entries⟩

def erase (t : FileTree) (place : Place) : FileTree := ⟨Assoc.erase place t.entries⟩

/-! ## Looking up paths -/

/-- Where a path leads: to a node, or to a free name in a directory. -/
inductive Target where
  | node (place : Place) (node : Node)
  | free (place : Place)
  deriving DecidableEq, Repr

structure Lookup where
  /-- Whether a link at the end is followed. -/
  follow : Bool
  /-- Whether the path ends with a slash and so must lead to a directory. -/
  asDirectory : Bool

/-- Goes down from the directory `here` along names. `jump` continues behind a link, given the
directory it stands in, its target and the names that are left. -/
def descend (t : FileTree) (how : Lookup)
    (jump : Place → String → List String → Except Errno Target) :
    (here : Place) → List String → Except Errno Target
  | here, [] => .ok (.node here .directory)
  | here, name :: rest =>
    if name = "." then descend t how jump here rest
    else if name = ".." then descend t how jump here.dropLast rest
    else
      match t.get? (here ++ [name]) with
      | none => if rest.isEmpty then .ok (.free (here ++ [name])) else .error .noEntry
      | some .directory => descend t how jump (here ++ [name]) rest
      | some (.file content executable) =>
        if rest.isEmpty && !how.asDirectory then
          .ok (.node (here ++ [name]) (.file content executable))
        else .error .notDirectory
      | some (.link target) =>
        if rest.isEmpty && !how.follow && !how.asDirectory then
          .ok (.node (here ++ [name]) (.link target))
        else jump here target rest

/-- The names of a path that count in a look-up. -/
def lookupNames (path : String) : List String := (Path.names path).filter (· != "")

def endsWithSlash (path : String) : Bool := path.toList.getLast? == some '/'

/-- Goes down from `here`, following at most `links` links. -/
def follow (t : FileTree) (how : Lookup) : (links : Nat) → Place → List String → Except Errno Target
  | 0 => descend t how fun _ _ _ => .error .linkLoop
  | links + 1 => descend t how fun here target rest =>
      let start := if Path.isAbsolute target then [] else here
      let how := { how with asDirectory := how.asDirectory || (rest.isEmpty && endsWithSlash target) }
      if target = "" then .error .noEntry
      else follow t how links start (lookupNames target ++ rest)

def maxLinks : Nat := 40

/-- Where a path leads, seen from the directory `cwd`. -/
def locate (t : FileTree) (cwd : Place) (path : String) (followLast : Bool) : Except Errno Target :=
  if path = "" then .error .noEntry
  else
    follow t ⟨followLast, endsWithSlash path⟩ maxLinks
      (if Path.isAbsolute path then [] else cwd) (lookupNames path)

/-- The node that a path leads to, links followed or not at the end. -/
def look (t : FileTree) (cwd : Place) (path : String) (followLast : Bool) :
    Except Errno (Place × Node) :=
  match t.locate cwd path followLast with
  | .ok (.node place node) => .ok (place, node)
  | .ok (.free _) => .error .noEntry
  | .error e => .error e

def status (t : FileTree) (cwd : Place) (path : String) : Except Errno Node :=
  (t.look cwd path true).map (·.2)

def isThere (t : FileTree) (cwd : Place) (path : String) : Bool :=
  (t.status cwd path).isOk

def isExecutable (t : FileTree) (cwd : Place) (path : String) : Bool :=
  match t.status cwd path with
  | .ok (.file _ executable) => executable
  | _ => false

end FileTree

end SolidityAst
