/-!
The matches of a pattern in a text, leftmost first and without overlap.

A pattern looks at the start of a text and gives what it found there together with the number of
characters that belong to it.
-/
namespace SolidityAst.Text

abbrev Pattern (α : Type) := List Char → Option (α × Nat)

namespace Pattern

variable {α : Type}

/-- All matches after the first `skip` characters. -/
def matchesAfter (p : Pattern α) : (skip : Nat) → List Char → List α
  | _, [] => []
  | skip + 1, _ :: cs => matchesAfter p skip cs
  | 0, c :: cs =>
    match p (c :: cs) with
    | some (a, n) => a :: matchesAfter p (n - 1) cs
    | none => matchesAfter p 0 cs

def matchesIn (p : Pattern α) (cs : List Char) : List α := matchesAfter p 0 cs

def firstIn? (p : Pattern α) : List Char → Option α
  | [] => none
  | c :: cs =>
    match p (c :: cs) with
    | some (a, _) => some a
    | none => firstIn? p cs

/-- The text after its first `skip` characters, without the matches. -/
def eraseAfter (p : Pattern α) : (skip : Nat) → List Char → List Char
  | _, [] => []
  | skip + 1, _ :: cs => eraseAfter p skip cs
  | 0, c :: cs =>
    match p (c :: cs) with
    | some (_, n) => eraseAfter p (n - 1) cs
    | none => c :: eraseAfter p 0 cs

def eraseFrom (p : Pattern α) (cs : List Char) : List Char := eraseAfter p 0 cs

end Pattern

end SolidityAst.Text
