import SolidityAst.FileTree.Basic

/-!
Reading and changing a file system.

Each operation gives its outcome together with the tree it leaves, so that one that fails half-way
still shows what it did.
-/
namespace SolidityAst.FileTree

def read (t : FileTree) (cwd : Place) (path : String) : Except FileError Bytes :=
  match t.status cwd path with
  | .ok (.file content _) => .ok content
  | .ok _ => .error ⟨"read", path, .isDirectory⟩
  | .error e => .error ⟨"open", path, e⟩

def makeDirectory (t : FileTree) (cwd : Place) (path : String) : Except FileError FileTree :=
  match t.locate cwd path false with
  | .ok (.free place) => .ok (t.insert place .directory)
  | .ok (.node _ _) => .error ⟨"mkdir", path, .occupied⟩
  | .error e => .error ⟨"mkdir", path, e⟩

/-- Makes the first of a list of directories, each above the one before it, after those above it. The
first of them that is there ends the list; it has to be a directory. -/
def ensureFirst (t : FileTree) (cwd : Place) : List String → Except FileError Unit × FileTree
  | [] => (.ok (), t)
  | path :: above =>
    match t.status cwd path with
    | .ok node =>
      if node.isDirectory then (.ok (), t) else (.error ⟨"mkdir", path, .notDirectory⟩, t)
    | .error _ =>
      match ensureFirst t cwd above with
      | (.error e, t) => (.error e, t)
      | (.ok (), t) =>
        match t.makeDirectory cwd path with
        | .ok t => (.ok (), t)
        | .error e =>
          match t.look cwd path false with
          | .ok (_, .directory) => (.ok (), t)
          | _ => (.error e, t)

def makeDirectories (t : FileTree) (cwd : Place) (path : String) : Except FileError Unit × FileTree :=
  t.ensureFirst cwd (Path.upward path.length path)

/-- Writes a file, through a link if one is there. A new file is not executable. -/
def write (t : FileTree) (cwd : Place) (path : String) (content : Bytes) :
    Except FileError FileTree :=
  match t.locate cwd path true with
  | .ok (.free place) =>
    if endsWithSlash path then .error ⟨"open", path, .isDirectory⟩
    else .ok (t.insert place (.file content false))
  | .ok (.node place (.file _ executable)) => .ok (t.insert place (.file content executable))
  | .ok (.node _ _) => .error ⟨"open", path, .isDirectory⟩
  | .error e => .error ⟨"open", path, e⟩

/-- Opens a file so that it can be written at its end, through a link if one is there; a missing one is
made. Gives its place. -/
def openAtEnd (t : FileTree) (cwd : Place) (path : String) : Except FileError (Place × FileTree) :=
  match t.locate cwd path true with
  | .ok (.free place) =>
    if endsWithSlash path then .error ⟨"open", path, .isDirectory⟩
    else .ok (place, t.insert place (.file [] false))
  | .ok (.node place (.file _ _)) => .ok (place, t)
  | .ok (.node _ _) => .error ⟨"open", path, .isDirectory⟩
  | .error e => .error ⟨"open", path, e⟩

/-- Writes at the end of the file at a place; one that is gone takes nothing. -/
def append (t : FileTree) (place : Place) (content : Bytes) : FileTree :=
  match t.get? place with
  | some (.file old executable) => t.insert place (.file (old ++ content) executable)
  | _ => t

def create (t : FileTree) (cwd : Place) (path : String) (content : Bytes) :
    Except FileError (Place × FileTree) :=
  match t.locate cwd path false with
  | .ok (.free place) => .ok (place, t.insert place (.file content false))
  | .ok (.node _ _) => .error ⟨"open", path, .occupied⟩
  | .error e => .error ⟨"open", path, e⟩

/-- Moves the file at `place`, whose path is `old`, to the path `new`. A file or link there is
replaced, a directory is not. -/
def rename (t : FileTree) (cwd : Place) (place : Place) (old new : String) :
    Except FileError FileTree :=
  match t.locate cwd new false, t.get? place with
  | .error e, _ => .error ⟨"rename", old ++ " " ++ new, e⟩
  | _, none => .error ⟨"rename", old ++ " " ++ new, .noEntry⟩
  | .ok (.node _ .directory), _ => .error ⟨"rename", old ++ " " ++ new, .occupied⟩
  | .ok (.node target _), some node => .ok ((t.erase place).insert target node)
  | .ok (.free target), some node => .ok ((t.erase place).insert target node)

def ensureAbove (t : FileTree) : Place → FileTree
  | [] => t
  | place =>
    (List.range place.length).foldl
      (fun t n =>
        match t.get? (place.take n) with
        | none => t.insert (place.take n) .directory
        | some _ => t) t

end SolidityAst.FileTree
