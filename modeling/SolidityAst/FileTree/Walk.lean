import SolidityAst.FileTree.Basic

/-!
Walks over directories.

A walk shows each entry to a visitor, who may have a directory left out or end the walk. It knows entries
by paths only: the path of an entry is that of its directory joined with its name, and a directory is
opened by its path. Joining cleans a path as a text, so a walk that starts at `link/..` may come to other
directories than those that stand below its start.
-/
namespace SolidityAst.FileTree

/-- The entries of the directory at a place, by increasing names. -/
def children (t : FileTree) (place : Place) : List (String × Node) :=
  t.entries.filterMap fun (p, node) =>
    if p.dropLast = place then p.getLast?.map fun name => (name, node) else none

def list (t : FileTree) (cwd : Place) (path : String) : Except FileError (List (String × Node)) :=
  match t.look cwd path true with
  | .ok (place, .directory) => .ok (t.children place)
  | .ok _ => .error ⟨"open", path, .notDirectory⟩
  | .error e => .error ⟨"open", path, e⟩

inductive Advice (ε : Type) where
  | goOn
  /-- Leaves out the directory, or, after an entry that is none, what is left of the directory around it. -/
  | skip
  | stop (e : ε)
  deriving DecidableEq, Repr

structure Visitor (σ ε : Type) where
  entry : (path name : String) → Node → σ → Advice ε × σ
  failure : (path : String) → FileError → σ → Advice ε × σ

variable {σ ε : Type}

def walkEntries (enter : (path name : String) → Node → σ → Advice ε × σ) (path : String) :
    List (String × Node) → σ → Advice ε × σ
  | [], s => (.goOn, s)
  | (name, node) :: rest, s =>
    match enter (Path.join [path, name]) name node s with
    | (.goOn, s) => walkEntries enter path rest s
    | (.skip, s) => (.goOn, s)
    | (.stop e, s) => (.stop e, s)

def walkDirectory (t : FileTree) (cwd : Place) (v : Visitor σ ε)
    (enter : (path name : String) → Node → σ → Advice ε × σ) (path : String) (s : σ) : Advice ε × σ :=
  match t.list cwd path with
  | .ok entries => walkEntries enter path entries s
  | .error e =>
    match v.failure path e s with
    | (.stop e, s) => (.stop e, s)
    | (_, s) => (.goOn, s)

/-- Goes through an entry and, if it is a directory, what is below it, so many levels deep. -/
def walkFrom (t : FileTree) (cwd : Place) (v : Visitor σ ε) :
    (depth : Nat) → (path name : String) → Node → σ → Advice ε × σ
  | 0, _, _, _, s => (.goOn, s)
  | depth + 1, path, name, node, s =>
    match v.entry path name node s with
    | (.goOn, s) =>
      if node.isDirectory then t.walkDirectory cwd v (walkFrom t cwd v depth) path s else (.goOn, s)
    | (.skip, s) => (if node.isDirectory then .goOn else .skip, s)
    | (.stop e, s) => (.stop e, s)

def height (t : FileTree) : Nat := t.entries.foldr (fun e h => max e.1.length h) 0

/-- A walk from a path. An entry that is reached by more than one name stands at a place with at most one
name less, so there is nothing deeper than two levels more than the tree is high. -/
def walk (t : FileTree) (cwd : Place) (v : Visitor σ ε) (root : String) (s : σ) : Except ε σ :=
  let (advice, s) :=
    match t.look cwd root false with
    | .ok (_, node) => t.walkFrom cwd v (t.height + 2) root (Path.base root) node s
    | .error e => v.failure root ⟨"lstat", root, e⟩ s
  match advice with
  | .stop e => .error e
  | _ => .ok s

end SolidityAst.FileTree
