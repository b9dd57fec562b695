/-!
Association lists in increasing order of keys.

Inserting keeps the order and leaves one entry per key, so two such lists with the same look-ups are
equal. JSON objects, file trees and environments are held this way.
-/
namespace SolidityAst.Assoc

variable {κ : Type} {α : Type} [DecidableEq κ] [LT κ] [DecidableRel (α := κ) (· < ·)]

def find? (key : κ) : List (κ × α) → Option α
  | [] => none
  | (k, v) :: rest => if k = key then some v else find? key rest

/-- Puts a value at the place of its key, instead of one that is there. -/
def insert (key : κ) (value : α) : List (κ × α) → List (κ × α)
  | [] => [(key, value)]
  | (k, v) :: rest =>
    if key < k then (key, value) :: (k, v) :: rest
    else if key = k then (key, value) :: rest
    else (k, v) :: insert key value rest

def erase (key : κ) (entries : List (κ × α)) : List (κ × α) :=
  entries.filter fun e => !decide (e.1 = key)

/-- The entries in increasing order of keys; of several with one key the last stays. -/
def ofList (entries : List (κ × α)) : List (κ × α) :=
  entries.foldl (fun sorted e => insert e.1 e.2 sorted) []

end SolidityAst.Assoc
